import Routing.Methods
import Routing.Proofs.Assoc

/-! The laws of a route's handlers.

What is put in under a method is found under it, and nothing else changes (`own?_insert`); what is
taken out is gone, and nothing else is (`own?_erase?`). The methods stay in ascending order,
without an empty one among them (`Ordered`), so handlers are the same if they answer each method
alike (`Ordered.ext`). -/
namespace Routing.Methods
open Assoc
variable {H : Type}

/-- The handler of a method itself; the empty method is any. -/
def own? (m : Methods H) (method : String) : Option H :=
  if method = "" then m.any else m.named.lookup method

structure Ordered (m : Methods H) : Prop where
  ascending : (m.named.map (·.1)).Pairwise (· < ·)
  named : "" ∉ m.named.map (·.1)

theorem Ordered.nodup {m : Methods H} (h : m.Ordered) : (m.named.map (·.1)).Nodup :=
  List.nodup_iff_pairwise_ne.mpr (h.ascending.imp Std.ne_of_lt)

theorem empty_ordered : (empty : Methods H).Ordered := ⟨.nil, List.not_mem_nil⟩

theorem eq_empty {m : Methods H} (h : m.isEmpty = true) : m = .empty := by
  obtain ⟨named, any⟩ := m
  rw [isEmpty, Bool.and_eq_true, List.isEmpty_iff, Option.isNone_iff_eq_none] at h
  obtain ⟨rfl, rfl⟩ := h
  rfl

theorem own?_empty (method : String) : (empty : Methods H).own? method = none := by
  unfold own?
  split <;> rfl

/-- A method is answered by its own handler, and without one by that for any. -/
theorem Ordered.find?_eq {m : Methods H} (h : m.Ordered) (method : String) :
    m.find? method = (m.own? method).or m.any := by
  unfold find? own?
  split
  · next hany =>
    rw [hany, lookup_eq_none_iff.mpr h.named, Option.none_or, Option.or_self]
  · rfl

/-! ### Putting in -/

theorem lookup_place (method : String) (handler : H) (l : List (String × H)) (other : String) :
    (place method handler l).lookup other = if other = method then some handler
      else l.lookup other := by
  induction l with
  | nil => exact lookup_cons_eq ..
  | cons first rest ih =>
    obtain ⟨key, kept⟩ := first
    unfold place
    split
    · next heq =>
      subst heq
      rw [lookup_cons_eq, lookup_cons_eq]
      split <;> rfl
    · next hne =>
      split
      · rw [lookup_cons_eq]
      · rw [lookup_cons_eq, lookup_cons_eq, ih]
        by_cases hkey : other = key
        · subst hkey
          rw [if_pos rfl, if_neg (Ne.symm hne), if_pos rfl]
        · rw [if_neg hkey, if_neg hkey]

theorem own?_insert (m : Methods H) (method : String) (handler : H) (other : String) :
    (m.insert method handler).own? other = if other = method then some handler
      else m.own? other := by
  by_cases hempty : method = ""
  · subst hempty
    by_cases h : other = "" <;> simp [own?, insert, h]
  · by_cases h : other = ""
    · subst h
      simp [own?, insert, hempty, Ne.symm hempty]
    · simp [own?, insert, hempty, h, lookup_place]

theorem mem_place {method : String} {handler : H} {l : List (String × H)} {other : String} :
    other ∈ (place method handler l).map (·.1) ↔ other = method ∨ other ∈ l.map (·.1) := by
  induction l with
  | nil => simp [place]
  | cons first rest ih =>
    obtain ⟨key, kept⟩ := first
    unfold place
    split
    · next heq =>
      subst heq
      simp
    · split
      · simp
      · rw [List.map_cons, List.mem_cons, ih, List.map_cons, List.mem_cons]
        exact or_left_comm

theorem place_ascending (method : String) (handler : H) {l : List (String × H)}
    (h : (l.map (·.1)).Pairwise (· < ·)) :
    ((place method handler l).map (·.1)).Pairwise (· < ·) := by
  induction l with
  | nil => exact List.pairwise_singleton ..
  | cons first rest ih =>
    obtain ⟨key, kept⟩ := first
    obtain ⟨hfirst, hrest⟩ := List.pairwise_cons.mp h
    unfold place
    split
    · next heq =>
      subst heq
      exact h
    · next hne =>
      split
      · next hlt =>
        refine List.pairwise_cons.mpr ⟨fun other hother => ?_, h⟩
        rcases List.mem_cons.mp hother with rfl | hother
        · exact hlt
        · exact String.lt_trans hlt (hfirst _ hother)
      · next hle =>
        refine List.pairwise_cons.mpr ⟨fun other hother => ?_, ih hrest⟩
        rcases mem_place.mp hother with rfl | hother
        · exact Std.lt_of_le_of_ne (String.not_lt.mp hle) (Ne.symm hne)
        · exact hfirst _ hother

theorem Ordered.insert {m : Methods H} (h : m.Ordered) (method : String) (handler : H) :
    (m.insert method handler).Ordered := by
  unfold Methods.insert
  split
  · exact ⟨h.ascending, h.named⟩
  · next hne =>
    refine ⟨place_ascending _ _ h.ascending, fun hmem => ?_⟩
    rcases mem_place.mp hmem with heq | hmem
    · exact hne heq.symm
    · exact h.named hmem

theorem isEmpty_insert (m : Methods H) (method : String) (handler : H) :
    (m.insert method handler).isEmpty = false := by
  have hplace : (place method handler m.named).isEmpty = false := by
    cases m.named with
    | nil => rfl
    | cons first rest =>
      unfold place
      split
      · rfl
      · split <;> rfl
  unfold insert
  split
  · exact Bool.and_false _
  · rw [isEmpty, hplace, Bool.false_and]

/-! ### Taking out -/

theorem own?_erase? {m m' : Methods H} {method : String} (h : m.erase? method = some m')
    (other : String) : m'.own? other = if other = method then none else m.own? other := by
  unfold erase? at h
  split at h
  · next hany =>
    subst hany
    obtain ⟨handler, -, rfl⟩ := Option.map_eq_some_iff.mp h
    by_cases hother : other = "" <;> simp [own?, hother]
  · next hany =>
    split at h
    · obtain rfl := Option.some.inj h
      have hfilter := lookup_filter_key (· ≠ method) m.named other
      by_cases hother : other = ""
      · subst hother
        simp [own?, Ne.symm hany]
      · simp only [own?, hother, if_false, hfilter]
        by_cases hsame : other = method <;> simp [hsame]
    · cases h

theorem erase?_eq_none_iff {m : Methods H} {method : String} :
    m.erase? method = none ↔ m.own? method = none := by
  unfold erase? own?
  split
  · exact Option.map_eq_none_iff
  · split
    · next h => exact iff_of_false (by simp) (Option.isSome_iff_ne_none.mp h)
    · next h => exact iff_of_true rfl (Option.not_isSome_iff_eq_none.mp h)

/-- There are no handlers if no method has one. -/
theorem Ordered.isEmpty_iff {m : Methods H} (h : m.Ordered) :
    m.isEmpty = true ↔ ∀ method, m.own? method = none := by
  constructor
  · intro hempty method
    rw [eq_empty hempty, own?_empty]
  · intro hnone
    obtain ⟨named, any⟩ := m
    have hany : any = none := hnone ""
    cases named with
    | nil => simp [isEmpty, hany]
    | cons first rest =>
      obtain ⟨key, handler⟩ := first
      have hkey : key ≠ "" := fun heq => h.named (by simp [heq])
      have hfirst := hnone key
      simp [own?, hkey] at hfirst

theorem Ordered.erase {m m' : Methods H} (h : m.Ordered) {method : String}
    (herase : m.erase? method = some m') : m'.Ordered := by
  unfold erase? at herase
  split at herase
  · obtain ⟨_, _, rfl⟩ := Option.map_eq_some_iff.mp herase
    exact ⟨h.ascending, h.named⟩
  · split at herase
    · cases herase
      have hsub : ((m.named.filter (·.1 ≠ method)).map (·.1)).Sublist (m.named.map (·.1)) :=
        List.filter_sublist.map _
      exact ⟨h.ascending.sublist hsub, fun hmem => h.named (hsub.subset hmem)⟩
    · cases herase

/-! ### As a list -/

/-- The methods with their handlers, that for any last and under the empty method. -/
def entries (m : Methods H) : List (String × H) := m.named ++ m.any.toList.map (("", ·))

theorem Ordered.lookup_entries {m : Methods H} (h : m.Ordered) (method : String) :
    m.entries.lookup method = m.own? method := by
  obtain ⟨named, any⟩ := m
  have hnamed : named.lookup "" = none := lookup_eq_none_iff.mpr h.named
  by_cases hany : method = ""
  · subst hany
    cases any <;> simp [entries, own?, List.lookup_append, hnamed]
  · cases any <;> simp [entries, own?, List.lookup_append, lookup_cons_eq, hany]

theorem Ordered.nodup_entries {m : Methods H} (h : m.Ordered) :
    (m.entries.map (·.1)).Nodup := by
  rw [entries, List.map_append, List.nodup_append']
  refine ⟨h.nodup, ?_, fun method hmethod hany => ?_⟩
  · cases m.any <;> simp
  · obtain rfl : method = "" := by
      cases hany' : m.any <;> simp_all
    exact h.named hmethod

theorem names_eq (m : Methods H) : m.names = m.entries.map (·.1) := by
  rw [names, entries, List.map_append]
  cases m.any <;> rfl

theorem Ordered.nodup_names {m : Methods H} (h : m.Ordered) : m.names.Nodup :=
  m.names_eq ▸ h.nodup_entries

theorem Ordered.mem_names {m : Methods H} (h : m.Ordered) {method : String} :
    method ∈ m.names ↔ m.own? method ≠ none := by
  rw [names_eq, ← h.lookup_entries, Ne, lookup_eq_none_iff, not_not]

theorem names_ne_nil {m : Methods H} (h : m.isEmpty = false) : m.names ≠ [] := by
  obtain ⟨named, any⟩ := m
  cases named <;> cases any <;> simp_all [names, isEmpty]

/-- Handlers are what they answer each method with. -/
theorem Ordered.ext {m m' : Methods H} (h : m.Ordered) (h' : m'.Ordered)
    (hown : ∀ method, m.own? method = m'.own? method) : m = m' := by
  have hmem {m : Methods H} (h : m.Ordered) (entry : String × H) :
      entry ∈ m.named ↔ entry.1 ≠ "" ∧ m.own? entry.1 = some entry.2 := by
    rw [own?]
    by_cases hany : entry.1 = ""
    · exact iff_of_false (fun hentry => h.named (hany ▸ List.mem_map_of_mem hentry))
        fun hne => hne.1 hany
    · rw [if_neg hany, lookup_eq_some_iff h.nodup]
      exact (and_iff_right hany).symm
  have hperm : m.named.Perm m'.named := by
    refine (List.perm_ext_iff_of_nodup h.nodup.of_map h'.nodup.of_map).mpr fun entry => ?_
    rw [hmem h, hmem h', hown]
  have hnamed : m.named = m'.named := by
    refine hperm.eq_of_pairwise ?_ (List.pairwise_map.mp h.ascending)
      (List.pairwise_map.mp h'.ascending)
    exact fun a b _ _ hlt hgt => absurd hgt (String.lt_asymm hlt)
  have hany : m.any = m'.any := hown ""
  cases m
  cases m'
  simp_all

/-- A handler that is there already is put in over itself. -/
theorem Ordered.insert_own {m : Methods H} (h : m.Ordered) {method : String} {handler : H}
    (hown : m.own? method = some handler) : m.insert method handler = m := by
  refine (h.insert method handler).ext h fun other => ?_
  rw [own?_insert]
  split
  · next hother => rw [hother, hown]
  · rfl

end Routing.Methods

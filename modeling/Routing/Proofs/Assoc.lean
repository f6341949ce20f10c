import Mathlib.Data.List.Nodup

/-! Keys with values in a list.

What is put under a key and what is taken out is seen in a lookup of any other key, and where no
key stands twice a lookup reads the list as it is (`lookup_eq_some_iff`): what alone passes a test is
what is found. -/
namespace Routing.Assoc
variable {α : Type}

/-- What alone passes a test is what is found. -/
theorem find?_eq_some_of_only {l : List α} {p : α → Bool} {a : α} (ha : a ∈ l) (hp : p a = true)
    (honly : ∀ b ∈ l, p b = true → b = a) : l.find? p = some a := by
  cases hfind : l.find? p with
  | none => exact (List.find?_eq_none.mp hfind a ha hp).elim
  | some b => rw [honly b (List.mem_of_find?_eq_some hfind) (List.find?_some hfind)]

theorem lookup_cons_eq (other key : String) (value : α) (l : List (String × α)) :
    ((key, value) :: l).lookup other = if other = key then some value else l.lookup other := by
  by_cases h : other = key
  · subst h
    rw [List.lookup_cons_self, if_pos rfl]
  · rw [List.lookup_cons, beq_false_of_ne h, if_neg h]

theorem mem_of_lookup {l : List (String × α)} {key : String} {value : α}
    (h : l.lookup key = some value) : (key, value) ∈ l := by
  obtain ⟨front, back, rfl, -⟩ := List.lookup_eq_some_iff.mp h
  simp

theorem lookup_eq_none_iff {l : List (String × α)} {key : String} :
    l.lookup key = none ↔ key ∉ l.map (·.1) := by
  rw [List.lookup_eq_none_iff]
  simp only [bne_iff_ne, List.mem_map, not_exists, not_and, ne_comm]

theorem lookup_eq_some_iff {l : List (String × α)} (h : (l.map (·.1)).Nodup) {key : String}
    {value : α} : l.lookup key = some value ↔ (key, value) ∈ l := by
  refine ⟨mem_of_lookup, fun hmem => ?_⟩
  cases hlookup : l.lookup key with
  | none => exact absurd (List.mem_map_of_mem hmem) (lookup_eq_none_iff.mp hlookup)
  | some other =>
    have hsame := List.inj_on_of_nodup_map h (mem_of_lookup hlookup) hmem rfl
    rw [(Prod.mk.inj hsame).2]

/-- Some keys are taken out. -/
theorem lookup_filter_key (keep : String → Bool) (l : List (String × α)) (key : String) :
    (l.filter (keep ·.1)).lookup key = if keep key then l.lookup key else none := by
  induction l with
  | nil => simp
  | cons first rest ih =>
    obtain ⟨other, value⟩ := first
    rw [List.filter_cons, lookup_cons_eq]
    by_cases hkey : key = other
    · subst hkey
      cases hkeep : keep key <;> simp [hkeep, ih]
    · cases hkeep : keep other <;> simp [hkey, ih, lookup_cons_eq]

/-- Some values are taken out. -/
theorem lookup_filter_value {l : List (String × α)} (h : (l.map (·.1)).Nodup) (keep : α → Bool)
    (key : String) : (l.filter (keep ·.2)).lookup key = (l.lookup key).filter keep := by
  have hkeys : ((l.filter (keep ·.2)).map (·.1)).Nodup := h.sublist (List.filter_sublist.map _)
  ext value
  rw [lookup_eq_some_iff hkeys, List.mem_filter, Option.filter_eq_some_iff, lookup_eq_some_iff h]

end Routing.Assoc

import Routing.Proofs.Assoc
import Routing.Proofs.Pattern
import Routing.Registry

/-! The registry.

Names and patterns go together one to one, and a pattern is recorded with the path that it reads
as (`Registry.Sound`). Recording a pattern changes what is found under it and under its name
(`lookup_record`, `path?_record`), dropping a path what is found of that path (`lookup_dropPath`,
`path?_dropPath`). -/
namespace Routing.Registry
open Assoc

/-! ### A table with keys -/

section put
variable {α : Type}

theorem lookup_put (key : String) (value : α) (l : List (String × α)) (other : String) :
    (put key value l).lookup other = if other = key then some value else l.lookup other := by
  induction l with
  | nil => exact lookup_cons_eq ..
  | cons first rest ih =>
    obtain ⟨head, kept⟩ := first
    unfold put
    split
    · next heq =>
      subst heq
      rw [lookup_cons_eq, lookup_cons_eq]
      split <;> rfl
    · next hne =>
      rw [lookup_cons_eq, lookup_cons_eq, ih]
      by_cases hhead : other = head
      · subst hhead
        simp [Ne.symm hne]
      · simp [hhead]

theorem put_of_notMem {key : String} {l : List (String × α)} (h : key ∉ l.map (·.1)) (value : α) :
    put key value l = l ++ [(key, value)] := by
  induction l with
  | nil => rfl
  | cons first rest ih =>
    rw [List.map_cons, List.mem_cons, not_or] at h
    rw [put, if_neg h.1, ih h.2, List.cons_append]

theorem put_put (key : String) (value : α) (l : List (String × α)) :
    put key value (put key value l) = put key value l := by
  induction l with
  | nil => exact if_pos rfl
  | cons first rest ih =>
    obtain ⟨head, kept⟩ := first
    by_cases hkey : key = head
    · simp [put, hkey]
    · simp [put, hkey, ih]

theorem keys_put (key : String) (value : α) (l : List (String × α)) :
    (put key value l).map (·.1) =
      if key ∈ l.map (·.1) then l.map (·.1) else l.map (·.1) ++ [key] := by
  induction l with
  | nil => rfl
  | cons first rest ih =>
    unfold put
    split
    · next heq => simp [heq]
    · next hne =>
      rw [List.map_cons, ih, List.map_cons]
      simp only [List.mem_cons, hne, false_or]
      split <;> simp

theorem nodup_put {key : String} {l : List (String × α)} (h : (l.map (·.1)).Nodup) (value : α) :
    ((put key value l).map (·.1)).Nodup := by
  rw [keys_put]
  split
  · exact h
  · next hkey => exact List.Nodup.append h (List.nodup_singleton key) (by simpa using hkey)

end put

/-! ### Names and patterns -/

/-- Names and patterns go together, and every pattern is recorded as it reads. -/
structure Sound (r : Registry) : Prop where
  keys : (r.paths.map (·.1)).Nodup
  unnamed : r.path? "" = none
  names : ∀ name text, name ≠ "" →
    (r.path? name = some text ↔ ∃ entry, r.paths.lookup text = some entry ∧ entry.name = name)
  reads : ∀ text entry, r.paths.lookup text = some entry →
    ∃ pattern, Pattern.parse text = .ok pattern ∧ pattern.text = text ∧ pattern.path = entry.path

theorem empty_sound : empty.Sound where
  keys := .nil
  unnamed := rfl
  names := by simp [empty, path?]
  reads := by simp [empty]

variable {r : Registry} {name : String} {pattern : Pattern}

/-- A name can be taken if it has no other pattern, and a pattern if it has no other name. -/
theorem accept_eq_ok_iff : r.accept name pattern = .ok () ↔ name ≠ "" →
    (∀ text, r.path? name = some text → text = pattern.text) ∧
      ∀ entry, r.paths.lookup pattern.text = some entry → entry.name = "" ∨ entry.name = name := by
  unfold accept
  split
  · next hname => simp [hname]
  · next hname =>
    rw [forall_prop_of_true hname]
    split
    · next bound hbound =>
      obtain ⟨hpath, hne⟩ := Option.filter_eq_some_iff.mp hbound
      exact iff_of_false (by simp) fun h => of_decide_eq_true hne (h.1 bound hpath)
    · next hfree =>
      have htext : ∀ text, r.path? name = some text → text = pattern.text := by
        simpa [Option.filter_eq_none_iff] using hfree
      split
      · next entry hentry =>
        obtain ⟨hlookup, hne⟩ := Option.filter_eq_some_iff.mp hentry
        obtain ⟨hsome, hother⟩ := of_decide_eq_true hne
        exact iff_of_false (by simp) fun h => (h.2 entry hlookup).elim hsome hother
      · next hfree =>
        refine iff_of_true rfl ⟨htext, fun entry hentry => ?_⟩
        have hname := Option.filter_eq_none_iff.mp hfree entry hentry
        simpa [or_iff_not_imp_left] using hname

/-! ### Recording a pattern -/

/-- The record of a pattern once it has been registered under a name. -/
def recorded (r : Registry) (name : String) (pattern : Pattern) : Entry :=
  let entry := (r.paths.lookup pattern.text).getD ⟨"", pattern.path⟩
  { entry with name := if entry.name = "" then name else entry.name }

theorem record_paths (r : Registry) (name : String) (pattern : Pattern) :
    (r.record name pattern).paths = put pattern.text (r.recorded name pattern) r.paths := by
  unfold record recorded
  generalize (r.paths.lookup pattern.text).getD ⟨"", pattern.path⟩ = entry
  obtain ⟨label, path⟩ := entry
  by_cases hlabel : label = "" <;> by_cases hname : name = "" <;> simp [hlabel, hname]

theorem lookup_record (r : Registry) (name : String) (pattern : Pattern) (text : String) :
    (r.record name pattern).paths.lookup text =
      if text = pattern.text then some (r.recorded name pattern) else r.paths.lookup text := by
  rw [record_paths, lookup_put]

theorem Sound.path_eq (h : r.Sound) (hparse : Pattern.parse pattern.text = .ok pattern)
    {entry : Entry} (hentry : r.paths.lookup pattern.text = some entry) :
    entry.path = pattern.path := by
  obtain ⟨other, hother, -, hpath⟩ := h.reads _ _ hentry
  obtain rfl := Except.ok.inj (hparse.symm.trans hother)
  exact hpath.symm

theorem Sound.recorded_path (h : r.Sound) (hparse : Pattern.parse pattern.text = .ok pattern) :
    (r.recorded name pattern).path = pattern.path := by
  cases hentry : r.paths.lookup pattern.text with
  | none => simp [recorded, hentry]
  | some entry => simp [recorded, hentry, h.path_eq hparse hentry]

/-- A pattern that may be registered under a name has it then. -/
theorem recorded_name (haccept : r.accept name pattern = .ok ()) (hname : name ≠ "") :
    (r.recorded name pattern).name = name := by
  cases hentry : r.paths.lookup pattern.text with
  | none => simp [recorded, hentry]
  | some entry =>
    rcases (accept_eq_ok_iff.mp haccept hname).2 entry hentry with h | h <;>
      simp [recorded, hentry, h]

theorem record_names (r : Registry) (name : String) (pattern : Pattern) :
    (r.record name pattern).names =
      if ((r.paths.lookup pattern.text).getD ⟨"", pattern.path⟩).name = "" ∧ name ≠ "" then
        put name pattern.text r.names
      else r.names := by
  simp only [record]
  split <;> rfl

theorem path?_record (h : r.Sound) (haccept : r.accept name pattern = .ok ()) (other : String) :
    (r.record name pattern).path? other =
      if other = name ∧ name ≠ "" then some pattern.text else r.path? other := by
  rw [path?, record_names]
  split
  · next hfresh => simp [path?, lookup_put, hfresh.2]
  · next hlabelled =>
    split
    · next hsame =>
      -- The pattern has the name already.
      obtain ⟨rfl, hname⟩ := hsame
      cases hlookup : r.paths.lookup pattern.text with
      | none => simp [hlookup, hname] at hlabelled
      | some entry =>
        have hlabel : entry.name ≠ "" := by simpa [hlookup, hname] using hlabelled
        have hentry := (accept_eq_ok_iff.mp haccept hname).2 entry hlookup
        exact (h.names _ _ hname).mpr ⟨entry, hlookup, hentry.resolve_left hlabel⟩
    · rfl

/-- A name that has a pattern keeps it. -/
theorem path?_record_of_some (h : r.Sound) (haccept : r.accept name pattern = .ok ())
    {other text : String} (htext : r.path? other = some text) :
    (r.record name pattern).path? other = some text := by
  rw [path?_record h haccept]
  split
  · next hname =>
    obtain ⟨rfl, hne⟩ := hname
    rw [(accept_eq_ok_iff.mp haccept hne).1 text htext]
  · exact htext

/-- A pattern is recorded once under a name. -/
theorem record_record (r : Registry) (name : String) (pattern : Pattern) :
    (r.record name pattern).record name pattern = r.record name pattern := by
  have hlookup : (r.record name pattern).paths.lookup pattern.text =
      some (r.recorded name pattern) := by
    rw [lookup_record, if_pos rfl]
  have hnamed : ¬ ((r.recorded name pattern).name = "" ∧ name ≠ "") := by
    rintro ⟨hunnamed, hname⟩
    simp only [recorded] at hunnamed
    split at hunnamed
    · exact hname hunnamed
    · next hlabel => exact hlabel hunnamed
  have hpaths : put pattern.text (r.recorded name pattern) (r.record name pattern).paths =
      (r.record name pattern).paths := by
    rw [record_paths, put_put]
  rw [record, hlookup, Option.getD_some, if_neg hnamed, hpaths]

theorem accept_record (h : r.Sound) (haccept : r.accept name pattern = .ok ()) :
    (r.record name pattern).accept name pattern = .ok () := by
  refine accept_eq_ok_iff.mpr fun hname => ⟨fun text htext => ?_, fun entry hentry => ?_⟩
  · rw [path?_record h haccept, if_pos ⟨rfl, hname⟩] at htext
    exact (Option.some.inj htext).symm
  · rw [lookup_record, if_pos rfl] at hentry
    obtain rfl := Option.some.inj hentry
    exact .inr (recorded_name haccept hname)

theorem Sound.record (h : r.Sound) (hparse : Pattern.parse pattern.text = .ok pattern)
    (haccept : r.accept name pattern = .ok ()) : (r.record name pattern).Sound where
  keys := by
    rw [record_paths]
    exact nodup_put h.keys _
  unnamed := by
    rw [path?_record h haccept, if_neg (fun heq => heq.2 heq.1.symm)]
    exact h.unnamed
  names := by
    intro other text hother
    rw [path?_record h haccept, lookup_record]
    by_cases hsame : other = name
    · subst hsame
      obtain ⟨hpath, -⟩ := accept_eq_ok_iff.mp haccept hother
      by_cases htext : text = pattern.text
      · simp [htext, hother, recorded_name haccept hother]
      · -- Another pattern had the name before.
        have hnames := h.names other text hother
        have hfree : r.path? other ≠ some text := fun heq => htext (hpath text heq)
        simpa [htext, Ne.symm htext, hother, hfree] using hnames
    · rw [if_neg (fun heq => hsame heq.1), h.names other text hother]
      by_cases htext : text = pattern.text
      · subst htext
        cases hentry : r.paths.lookup pattern.text with
        | none => simp [recorded, hentry, Ne.symm hsame]
        | some entry =>
          by_cases hlabel : entry.name = ""
          · simp [recorded, hentry, hlabel, Ne.symm hother, Ne.symm hsame]
          · simp [recorded, hentry, hlabel]
      · simp [htext]
  reads := by
    intro text entry hentry
    rw [lookup_record] at hentry
    split at hentry
    · next htext =>
      obtain rfl := Option.some.inj hentry
      exact ⟨pattern, htext ▸ hparse, htext.symm, (h.recorded_path hparse).symm⟩
    · exact h.reads text entry hentry

/-! ### Dropping a path -/

/-- The path of the pattern that has a name. -/
def pathOf? (r : Registry) (name : String) : Option (List Char) :=
  ((r.path? name).bind fun text => r.paths.lookup text).map Entry.path

theorem lookup_dropPath (h : r.Sound) (path : List Char) (text : String) :
    (r.dropPath path).paths.lookup text = (r.paths.lookup text).filter (·.path ≠ path) :=
  lookup_filter_value h.keys (·.path ≠ path) text

theorem pathOf?_eq_some {other : String} {path : List Char} : r.pathOf? other = some path ↔
    ∃ text entry, r.path? other = some text ∧ r.paths.lookup text = some entry ∧
      entry.path = path := by
  simp only [pathOf?, Option.map_eq_some_iff, Option.bind_eq_some_iff]
  constructor
  · rintro ⟨entry, ⟨text, htext, hentry⟩, hpath⟩
    exact ⟨text, entry, htext, hentry, hpath⟩
  · rintro ⟨text, entry, htext, hentry, hpath⟩
    exact ⟨entry, ⟨text, htext, hentry⟩, hpath⟩

/-- The names that go with a path are those of its patterns. -/
theorem Sound.mem_names_of_path (h : r.Sound) {other : String} (hother : other ≠ "")
    (path : List Char) :
    other ∈ (r.paths.filter (·.2.path = path)).map (·.2.name) ↔ r.pathOf? other = some path := by
  rw [pathOf?_eq_some]
  simp only [List.mem_map, List.mem_filter, decide_eq_true_eq]
  constructor
  · rintro ⟨⟨text, entry⟩, ⟨hmem, hpath⟩, hname⟩
    have hentry := (lookup_eq_some_iff h.keys).mpr hmem
    exact ⟨text, entry, (h.names other text hother).mpr ⟨entry, hentry, hname⟩, hentry, hpath⟩
  · rintro ⟨text, entry, htext, hentry, hpath⟩
    obtain ⟨same, hsame, hname⟩ := (h.names other text hother).mp htext
    obtain rfl := Option.some.inj (hentry.symm.trans hsame)
    exact ⟨(text, entry), ⟨mem_of_lookup hentry, hpath⟩, hname⟩

theorem path?_dropPath (h : r.Sound) (path : List Char) (other : String) :
    (r.dropPath path).path? other =
      if r.pathOf? other = some path then none else r.path? other := by
  have hfilter := lookup_filter_key
    (· ∉ (r.paths.filter (·.2.path = path)).map (·.2.name)) r.names other
  rw [path?, dropPath, hfilter]
  by_cases hother : other = ""
  · have hunnamed : r.names.lookup other = none := hother ▸ h.unnamed
    simp [path?, hunnamed]
  · simp only [decide_eq_true_eq, h.mem_names_of_path hother, ite_not]
    rfl

/-- What is left when a path is dropped: its patterns go, with their names, and nothing else. -/
structure Drops (r : Registry) (gone : List Char) (left : Registry) : Prop where
  patterns : ∀ text, left.paths.lookup text = (r.paths.lookup text).filter (·.path ≠ gone)
  names : ∀ name, left.path? name = if r.pathOf? name = some gone then none else r.path? name

theorem dropPath_drops (h : r.Sound) (gone : List Char) : r.Drops gone (r.dropPath gone) :=
  ⟨lookup_dropPath h gone, path?_dropPath h gone⟩

/-- A name whose pattern is not of the path keeps its own. -/
theorem pathOf?_dropPath_of_ne (h : r.Sound) {other : String} {path gone : List Char}
    (hpath : r.pathOf? other = some path) (hne : path ≠ gone) :
    (r.dropPath gone).pathOf? other = some path := by
  obtain ⟨text, entry, htext, hentry, rfl⟩ := pathOf?_eq_some.mp hpath
  refine pathOf?_eq_some.mpr ⟨text, entry, ?_, ?_, rfl⟩
  · rw [path?_dropPath h, hpath, if_neg fun heq => hne (Option.some.inj heq)]
    exact htext
  · rw [lookup_dropPath h, hentry, Option.filter_some, if_pos (decide_eq_true hne)]

theorem Sound.dropPath (h : r.Sound) (path : List Char) : (r.dropPath path).Sound where
  keys := h.keys.sublist (List.filter_sublist.map _)
  unnamed := by
    rw [path?_dropPath h, h.unnamed, ite_self]
  names := by
    intro other text hother
    simp only [path?_dropPath h, lookup_dropPath h, Option.filter_eq_some_iff, decide_eq_true_eq]
    by_cases hpath : r.pathOf? other = some path
    · rw [if_pos hpath]
      refine iff_of_false (by simp) ?_
      rintro ⟨entry, ⟨hentry, hne⟩, hname⟩
      have htext := (h.names other text hother).mpr ⟨entry, hentry, hname⟩
      have hown := pathOf?_eq_some.mpr ⟨text, entry, htext, hentry, rfl⟩
      exact hne (Option.some.inj (hown.symm.trans hpath))
    · rw [if_neg hpath, h.names other text hother]
      refine exists_congr fun entry => ⟨fun ⟨hentry, hname⟩ => ⟨⟨hentry, ?_⟩, hname⟩,
        fun ⟨⟨hentry, _⟩, hname⟩ => ⟨hentry, hname⟩⟩
      have htext := (h.names other text hother).mpr ⟨entry, hentry, hname⟩
      exact fun heq => hpath (pathOf?_eq_some.mpr ⟨text, entry, htext, hentry, heq⟩)
  reads := by
    intro text entry hentry
    rw [lookup_dropPath h, Option.filter_eq_some_iff] at hentry
    exact h.reads text entry hentry.1

/-! ### Recording and dropping -/

section fresh
variable (h : r.Sound) (haccept : r.accept name pattern = .ok ())
  (hnew : r.paths.lookup pattern.text = none)
include hnew

theorem record_paths_of_new :
    (r.record name pattern).paths = r.paths ++ [(pattern.text, ⟨name, pattern.path⟩)] := by
  rw [record_paths, put_of_notMem (lookup_eq_none_iff.mp hnew)]
  simp [recorded, hnew]

include h haccept

/-- A name given to a new pattern is new. -/
theorem path?_of_new : r.path? name = none := by
  by_cases hname : name = ""
  · exact hname ▸ h.unnamed
  · refine Option.eq_none_iff_forall_ne_some.mpr fun text htext => ?_
    obtain ⟨entry, hentry, -⟩ := (h.names name text hname).mp htext
    rw [(accept_eq_ok_iff.mp haccept hname).1 text htext, hnew] at hentry
    cases hentry

theorem record_names_of_new : (r.record name pattern).names =
    r.names ++ if name = "" then [] else [(name, pattern.text)] := by
  have hunbound : name ∉ r.names.map (·.1) :=
    lookup_eq_none_iff.mp (path?_of_new h haccept hnew)
  rw [record_names, hnew]
  by_cases hname : name = "" <;> simp [hname, put_of_notMem hunbound]

end fresh

/-- A pattern of a new path leaves nothing behind when its path is dropped. -/
theorem dropPath_record (h : r.Sound) (hparse : Pattern.parse pattern.text = .ok pattern)
    (haccept : r.accept name pattern = .ok ())
    (hfresh : ∀ text entry, r.paths.lookup text = some entry → entry.path ≠ pattern.path) :
    (r.record name pattern).dropPath pattern.path = r := by
  have hnew : r.paths.lookup pattern.text = none :=
    Option.eq_none_iff_forall_ne_some.mpr fun entry hentry =>
      hfresh _ entry hentry (h.path_eq hparse hentry)
  have hothers : ∀ record ∈ r.paths, record.2.path ≠ pattern.path := fun record hrecord =>
    hfresh _ _ ((lookup_eq_some_iff h.keys).mpr hrecord)
  have hkeys : ∀ key ∈ r.names, key.1 ≠ name := fun key hkey heq =>
    lookup_eq_none_iff.mp (path?_of_new h haccept hnew) (List.mem_map.mpr ⟨key, hkey, heq⟩)
  have hkept : r.paths.filter (·.2.path ≠ pattern.path) = r.paths :=
    List.filter_eq_self.mpr fun record hrecord => decide_eq_true (hothers record hrecord)
  have hgone : r.paths.filter (·.2.path = pattern.path) = [] :=
    List.filter_eq_nil_iff.mpr fun record hrecord => by simpa using hothers record hrecord
  have hkeptNames : r.names.filter (·.1 ∉ [name]) = r.names :=
    List.filter_eq_self.mpr fun key hkey => by simpa using hkeys key hkey
  rw [dropPath, record_paths_of_new hnew, record_names_of_new h haccept hnew]
  apply congrArg₂ Registry.mk
  · simp only [List.filter_append, hgone, List.nil_append, List.filter_cons, List.filter_nil,
      decide_true, if_true, List.map_cons, List.map_nil, hkeptNames]
    split <;> simp
  · rw [List.filter_append, hkept]
    simp

end Routing.Registry

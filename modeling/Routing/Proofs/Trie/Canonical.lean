import Mathlib.Data.List.Forall2
import Mathlib.Algebra.BigOperators.Group.List.Basic
import Routing.Proofs.Trie.Outline
import Routing.Proofs.Trie.Plant
import Routing.Proofs.Trie.Resolve

/-! The routes settle the tree.

A tree of sound and tight nodes has a node where a route ends, where routes part and around a
mark, and no other. So two such trees with routes at the same paths are the same but for the
order of siblings and the numbers of nodes (`Part.alike`), and if the routes come in the same
order as well, siblings do too (`Part.levels_eq`). What was put in and taken out before makes no
difference. -/
namespace Routing.Trie
open Text
variable {H : Type}

/-- Two stored nodes that are the same, with all that is below them, but for the order of children
and the numbers. -/
inductive Alike (t t' : Trie H) : Slot → Slot → Prop
  | node {slot slot' : Slot} {n n' : Node H} {kids : List Slot} :
    t.node? slot = some n → t'.node? slot' = some n' → n.kind = n'.kind → n.text = n'.text →
    n.hasRoute = n'.hasRoute → kids.Perm n'.children →
    List.Forall₂ (Alike t t') n.children kids → Alike t t' slot slot'

namespace Tree

/-- The paths of the routes of a part. -/
def paths (above : List Char) (n : Tree H) : List (List Char) :=
  (n.routesAt above).map Route.path

theorem mem_paths {n : Tree H} {above path : List Char} :
    path ∈ n.paths above ↔ ∃ route ∈ n.routesAt above, route.path = path := List.mem_map

end Tree

namespace Part
variable {whole whole' n n' m : Tree H} {C C' : Context H}

/-! ### What the routes of a node say of it -/

/-- There is a route at every node, or below it. -/
theorem exists_route (h : Part whole C n) : ∃ route, route ∈ n.routesAt C.above := by
  induction n using Tree.induction generalizing C with
  | step slot content children ih =>
    rcases h.all_tight _ (h.mem_all Tree.top_mem) with hroute | ⟨hkids, -⟩
    · exact ⟨_, Tree.mem_routesAt_iff.mpr (.inl (Content.routeAt_of_hasRoute hroute _))⟩
    · obtain ⟨m, hm⟩ := List.exists_mem_of_ne_nil children (mt List.map_eq_nil_iff.mpr hkids)
      obtain ⟨D, hD, habove, -⟩ := h.child hm
      obtain ⟨route, hroute⟩ := ih m hm hD
      rw [habove] at hroute
      exact ⟨route, Tree.mem_routesAt_iff.mpr (.inr ⟨m, hm, hroute⟩)⟩

/-- A node carries a route if one has its path. -/
theorem hasRoute_iff (h : Part whole C n) :
    n.content.hasRoute = true ↔ C.above ++ n.content.text ∈ n.paths C.above := by
  rw [Tree.mem_paths]
  constructor
  · intro hroute
    exact ⟨_, Tree.mem_routesAt_iff.mpr (.inl (Content.routeAt_of_hasRoute hroute _)), rfl⟩
  · rintro ⟨route, hroute, hpath⟩
    rcases Tree.mem_routesAt_iff.mp hroute with hat | ⟨m, hm, hbelow⟩
    · exact (Content.routeAt_eq_some.mp hat).1
    · obtain ⟨tail, htail⟩ := h.path_of_child hm hbelow
      rw [htail] at hpath
      exact absurd (congrArg List.length hpath) (by simp)

/-- The routes below a child are those that go on with its label. -/
theorem mem_paths_child (h : Part whole C n) (hm : m ∈ n.children) {path : List Char} :
    path ∈ m.paths (C.above ++ n.content.text) ↔ path ∈ n.paths C.above ∧
      ∃ tail, path = C.above ++ n.content.text ++ m.content.label :: tail := by
  simp only [Tree.mem_paths]
  constructor
  · rintro ⟨route, hroute, rfl⟩
    exact ⟨⟨route, Tree.mem_routesAt_iff.mpr (.inr ⟨m, hm, hroute⟩), rfl⟩,
      h.path_of_child hm hroute⟩
  · rintro ⟨⟨route, hroute, rfl⟩, tail, htail⟩
    rcases Tree.mem_routesAt_iff.mp hroute with hat | ⟨m', hm', hbelow⟩
    · rw [(Content.routeAt_eq_some.mp hat).2] at htail
      exact absurd (congrArg List.length htail) (by simp)
    · obtain ⟨tail', htail'⟩ := h.path_of_child hm' hbelow
      rw [htail', List.append_cancel_left_eq] at htail
      obtain rfl := Tree.eq_of_label_eq h.top hm' hm (List.cons.inj htail).1
      exact ⟨route, hbelow, rfl⟩

/-- There is a child for every character that routes go on with. -/
theorem exists_child_iff (h : Part whole C n) {x : Char} :
    (∃ m ∈ n.children, m.content.label = x) ↔
      ∃ tail, C.above ++ n.content.text ++ x :: tail ∈ n.paths C.above := by
  constructor
  · rintro ⟨m, hm, rfl⟩
    obtain ⟨D, hD, habove, -⟩ := h.child hm
    obtain ⟨route, hroute⟩ := hD.exists_route
    rw [habove] at hroute
    obtain ⟨tail, htail⟩ := h.path_of_child hm hroute
    refine ⟨tail, Tree.mem_paths.mpr ⟨route, ?_, htail⟩⟩
    exact Tree.mem_routesAt_iff.mpr (.inr ⟨m, hm, hroute⟩)
  · rintro ⟨tail, hpath⟩
    obtain ⟨route, hroute, htail⟩ := Tree.mem_paths.mp hpath
    rcases Tree.mem_routesAt_iff.mp hroute with hat | ⟨m, hm, hbelow⟩
    · rw [(Content.routeAt_eq_some.mp hat).2] at htail
      exact absurd (congrArg List.length htail) (by simp)
    · obtain ⟨tail', htail'⟩ := h.path_of_child hm hbelow
      rw [htail', List.append_cancel_left_eq] at htail
      exact ⟨m, hm, (List.cons.inj htail).1⟩

/-- The children of a node are told apart by their labels. -/
theorem nodup_labels (h : Part whole C n) : (n.children.map (·.content.label)).Nodup := by
  have hlabels := h.top.labels
  rw [Tree.top_kids, List.map_map] at hlabels
  exact hlabels

/-- A label tells the kind. -/
theorem kind_eq (h : Part whole C n) (h' : Part whole' C' n')
    (hlabel : n.content.label = n'.content.label) : n.content.kind = n'.content.kind := by
  have hrank := h.top.content.rank_label
  have hrank' := h'.top.content.rank_label
  rw [Tree.top_content] at hrank hrank'
  rw [hlabel, hrank'] at hrank
  cases hkind : n.content.kind <;> cases hkind' : n'.content.kind <;>
    simp_all [Kind.rank]

/-- Not all routes of a static node go on behind it with the same literal character: a node would
be one with its only child then. -/
theorem parts (h : Part whole C n) (hkind : n.content.kind = .static) {x : Char}
    (hx : Literal [x])
    (hall : ∀ path ∈ n.paths C.above, ∃ tail, path = C.above ++ n.content.text ++ x :: tail) :
    False := by
  have hlabel (m) (hm : m ∈ n.children) : m.content.label = x := by
    obtain ⟨tail, hpath⟩ := h.exists_child_iff.mp ⟨m, hm, rfl⟩
    obtain ⟨tail', heq⟩ := hall _ hpath
    exact (List.cons.inj (List.append_cancel_left heq)).1
  rcases h.all_tight _ (h.mem_all Tree.top_mem) with hroute | ⟨hkids, hchain⟩
  · obtain ⟨tail, heq⟩ := hall _ (h.hasRoute_iff.mp hroute)
    exact absurd (congrArg List.length heq) (by simp)
  · obtain ⟨m, hm⟩ := List.exists_mem_of_ne_nil n.children (mt List.map_eq_nil_iff.mpr hkids)
    have hstatic : m.content.kind = .static := by
      have hrank := (h.child_sound hm).rank_label
      rw [hlabel m hm] at hrank
      obtain ⟨hcolon, hstar⟩ := literal_singleton.mp hx
      cases hkind : m.content.kind <;> simp_all [rank, Kind.rank]
    refine hchain hkind ?_
    -- All children have the label of this one, and no two the same.
    have hone : n.children = [m] := by
      have honly (m') (hm' : m' ∈ n.children) : m' = m :=
        Tree.eq_of_label_eq h.top hm' hm ((hlabel m' hm').trans (hlabel m hm).symm)
      refine List.perm_singleton.mp ((List.perm_ext_iff_of_nodup h.nodup_labels.of_map
        (List.nodup_singleton m)).mpr fun m' => ?_)
      rw [List.mem_singleton]
      exact ⟨honly m', fun heq => heq ▸ hm⟩
    rw [Tree.top_kids, hone]
    exact congrArg (fun kind => [kind]) hstatic

/-! ### Two nodes with the same routes -/

section same
variable (h : Part whole C n) (h' : Part whole' C' n')
include h h'

/-- A static node's text does not end before that of another if all its routes are routes of the
other. -/
theorem eq_nil_of_text_eq (hkind : n.content.kind = .static) (hkind' : n'.content.kind = .static)
    (hsub : ∀ path ∈ n.paths C.above, path ∈ n'.paths C.above) {rest : List Char}
    (htext : n'.content.text = n.content.text ++ rest) : rest = [] := by
  cases rest with
  | nil => rfl
  | cons x rest =>
    have hfits : n'.content.kind.Fits n'.content.text := h'.top.content.fits
    rw [hkind', htext, List.append_cons] at hfits
    have hliteral : Literal [x] := (literal_append.mp (literal_append.mp hfits).1).2
    refine (h.parts hkind hliteral fun path hpath => ?_).elim
    obtain ⟨route, hroute, rfl⟩ := Tree.mem_paths.mp (hsub path hpath)
    obtain ⟨tail, htail⟩ := Tree.path_of_routesAt hroute
    exact ⟨rest ++ tail, by rw [htail, htext]; simp⟩

variable (habove : C'.above = C.above) (hlabel : n.content.label = n'.content.label)
  (hpaths : ∀ path, path ∈ n.paths C.above ↔ path ∈ n'.paths C.above)
include habove hlabel hpaths

theorem text_eq : n.content.text = n'.content.text := by
  have hkinds := h.kind_eq h' hlabel
  have hfits : n.content.kind.Fits n.content.text := h.top.content.fits
  have hfits' : n'.content.kind.Fits n'.content.text := h'.top.content.fits
  cases hkind : n.content.kind with
  | static =>
    have hkind' := hkinds.symm.trans hkind
    obtain ⟨route, hroute⟩ := h.exists_route
    have hpath := Tree.mem_paths.mpr ⟨route, hroute, rfl⟩
    obtain ⟨route', hroute', hsame⟩ := Tree.mem_paths.mp ((hpaths _).mp hpath)
    obtain ⟨tail, htail⟩ := Tree.path_of_routesAt hroute
    obtain ⟨tail', htail'⟩ := Tree.path_of_routesAt hroute'
    rw [hsame, htail, List.append_assoc, List.append_assoc, List.append_cancel_left_eq] at htail'
    -- One text begins with the other.
    rcases List.append_eq_append_iff.mp htail' with ⟨rest, htext, -⟩ | ⟨rest, htext, -⟩
    · obtain rfl := h.eq_nil_of_text_eq h' hkind hkind' (fun path => (hpaths path).mp) htext
      rw [htext, List.append_nil]
    · have hback : ∀ path ∈ n'.paths C'.above, path ∈ n.paths C'.above := by
        rw [habove]
        exact fun path => (hpaths path).mpr
      obtain rfl := h'.eq_nil_of_text_eq h hkind' hkind hback htext
      rw [htext, List.append_nil]
  | param =>
    rw [← hkinds, hkind] at hfits'
    rw [hkind] at hfits
    exact hfits.trans hfits'.symm
  | wildcard =>
    rw [← hkinds, hkind] at hfits'
    rw [hkind] at hfits
    exact hfits.trans hfits'.symm

theorem hasRoute_eq : n.content.hasRoute = n'.content.hasRoute := by
  have htext := h.text_eq h' habove hlabel hpaths
  have hroute := h'.hasRoute_iff
  rw [habove, ← hpaths, ← htext, ← h.hasRoute_iff] at hroute
  exact Bool.eq_iff_iff.mpr hroute.symm

/-- For every child there is one with the same label. -/
theorem exists_child (hm : m ∈ n.children) :
    ∃ m' ∈ n'.children, m'.content.label = m.content.label := by
  obtain ⟨tail, hpath⟩ := h.exists_child_iff.mp ⟨m, hm, rfl⟩
  rw [hpaths, h.text_eq h' habove hlabel hpaths, ← habove] at hpath
  exact h'.exists_child_iff.mpr ⟨tail, hpath⟩

/-- Children with the same label have the same routes. -/
theorem paths_child {m' : Tree H} (hm : m ∈ n.children) (hm' : m' ∈ n'.children)
    (hsame : m.content.label = m'.content.label) (path : List Char) :
    path ∈ m.paths (C.above ++ n.content.text) ↔ path ∈ m'.paths (C.above ++ n.content.text) := by
  have htext := h.text_eq h' habove hlabel hpaths
  have hmem' : path ∈ m'.paths (C'.above ++ n'.content.text) ↔ _ := h'.mem_paths_child hm'
  rw [habove, ← htext, ← hsame, ← hpaths] at hmem'
  exact (h.mem_paths_child hm).trans hmem'.symm

end same

end Part

theorem map_eq_of_forall₂ {α β γ : Type} {f : α → γ} {g : β → γ} {l : List α} {l' : List β}
    (h : List.Forall₂ (fun a b => f a = g b) l l') : l.map f = l'.map g := by
  rw [← List.forall₂_eq_eq_eq, List.forall₂_map_left_iff, List.forall₂_map_right_iff]
  exact h

/-- Lists whose members are told apart, and can be paired, are paired in some order. -/
theorem exists_perm_forall₂ {α β γ : Type} [Nonempty β] {f : α → γ} {g : β → γ} {R : α → β → Prop}
    {l : List α} {l' : List β} (hl : (l.map f).Nodup) (hl' : (l'.map g).Nodup)
    (hto : ∀ a ∈ l, ∃ b ∈ l', g b = f a ∧ R a b) (hfrom : ∀ b ∈ l', ∃ a ∈ l, f a = g b) :
    ∃ k, k.Perm l' ∧ List.Forall₂ R l k := by
  choose! pick hmem hpick hR using hto
  have htags : (l.map pick).map g = l.map f := by
    rw [List.map_map]
    exact List.map_congr_left hpick
  refine ⟨l.map pick, ?_, ?_⟩
  · refine (List.perm_ext_iff_of_nodup (htags ▸ hl).of_map hl'.of_map).mpr fun b => ?_
    rw [List.mem_map]
    constructor
    · rintro ⟨a, ha, rfl⟩
      exact hmem a ha
    · intro hb
      obtain ⟨a, ha, htag⟩ := hfrom b hb
      exact ⟨a, ha, List.inj_on_of_nodup_map hl' (hmem a ha) hb ((hpick a ha).trans htag)⟩
  · rw [List.forall₂_map_right_iff, List.forall₂_same]
    exact hR

/-- Two nodes with routes at the same paths are the same but for the order of siblings. -/
theorem Part.alike {whole whole' n n' : Tree H} {C C' : Context H} (h : Part whole C n)
    (h' : Part whole' C' n') (habove : C'.above = C.above)
    (hlabel : n.content.label = n'.content.label)
    (hpaths : ∀ path, path ∈ n.paths C.above ↔ path ∈ n'.paths C.above) {t t' : Trie H}
    {parent parent' : Option Slot} (ht : t.Stores parent n) (ht' : t'.Stores parent' n') :
    Alike t t' n.slot n'.slot ∧ n.slots.length = n'.slots.length := by
  induction n using Tree.induction generalizing C C' n' parent parent' with
  | step slot content children ih =>
    generalize hn : Tree.node slot content children = n at *
    have htext := h.text_eq h' habove hlabel hpaths
    have hcounterpart : ∀ m ∈ n.children, ∃ m' ∈ n'.children,
        m'.content.label = m.content.label ∧
          Alike t t' m.slot m'.slot ∧ m.slots.length = m'.slots.length := by
      intro m hm
      obtain ⟨m', hm', hsame⟩ := h.exists_child h' habove hlabel hpaths hm
      obtain ⟨D, hD, hDabove, -⟩ := h.child hm
      obtain ⟨D', hD', hDabove', -⟩ := h'.child hm'
      have hmem : m ∈ children := by
        rw [← hn] at hm
        exact hm
      refine ⟨m', hm', hsame, ih m hmem hD hD' ?_ hsame.symm ?_ (ht.child hm) (ht'.child hm')⟩
      · rw [hDabove, hDabove', habove, htext]
      · rw [hDabove]
        exact h.paths_child h' habove hlabel hpaths hm hm' hsame.symm
    have hcounterpart' : ∀ m' ∈ n'.children, ∃ m ∈ n.children, m.content.label = m'.content.label :=
      fun m' hm' => h'.exists_child h habove.symm hlabel.symm
        (fun path => habove ▸ (hpaths path).symm) hm'
    -- Children are paired by their labels, for no two of a node have the same.
    have : Nonempty (Tree H) := ⟨n⟩
    obtain ⟨kids, hperm, hkids⟩ :=
      exists_perm_forall₂ h.nodup_labels h'.nodup_labels hcounterpart hcounterpart'
    constructor
    · refine .node ht.node?_eq ht'.node?_eq (h.kind_eq h' hlabel) htext
        (h.hasRoute_eq h' habove hlabel hpaths) (hperm.map Tree.slot) ?_
      rw [List.forall₂_map_left_iff, List.forall₂_map_right_iff]
      exact hkids.imp fun _ _ hsame => hsame.1
    · have hlengths : n.children.map (fun m => m.slots.length) =
          kids.map (fun m => m.slots.length) :=
        map_eq_of_forall₂ (hkids.imp fun _ _ hsame => hsame.2)
      rw [Tree.slots_eq, Tree.slots_eq, List.length_cons, List.length_cons, List.length_flatMap,
        List.length_flatMap, hlengths, (hperm.map _).sum_eq]

/-! ### In the same order -/

section wholes
variable {α β γ : Type} (key : β → Option γ) {f : α → List β} {tag : α → γ}

/-- The key of the first in a whole is that of the first member. -/
theorem head?_flatMap_cons {a : α} (rest : List α)
    (hkey : f a ≠ [] ∧ ∀ b ∈ f a, key b = some (tag a)) :
    ((a :: rest).flatMap f).head?.bind key = some (tag a) := by
  obtain ⟨b, bs, hb⟩ := List.exists_cons_of_ne_nil hkey.1
  have hfirst : b ∈ f a := by simp [hb]
  simpa [hb] using hkey.2 b hfirst

variable [DecidableEq γ]

/-- The first member's contribution to a whole is what has its key. -/
theorem filter_flatMap_cons {a : α} {rest : List α} (ha : tag a ∉ rest.map tag)
    (hkey : ∀ m ∈ a :: rest, ∀ b ∈ f m, key b = some (tag m)) :
    ((a :: rest).flatMap f).filter (key · = some (tag a)) = f a := by
  rw [List.forall_mem_cons] at hkey
  have hown : (f a).filter (key · = some (tag a)) = f a :=
    List.filter_eq_self.mpr fun b hb => decide_eq_true (hkey.1 b hb)
  have hothers : (rest.flatMap f).filter (key · = some (tag a)) = [] := by
    refine List.filter_eq_nil_iff.mpr fun b hb heq => ?_
    obtain ⟨m, hm, hbm⟩ := List.mem_flatMap.mp hb
    have hsame := hkey.2 m hm b hbm
    rw [of_decide_eq_true heq, Option.some.injEq] at hsame
    exact ha (List.mem_map.mpr ⟨m, hm, hsame.symm⟩)
  rw [List.flatMap_cons, List.filter_append, hown, hothers, List.append_nil]

/-- Lists whose members are told apart by what they contribute to a whole are paired if the
wholes are the same. -/
theorem forall₂_of_flatMap_eq {R : α → α → Prop} {l l' : List α} (hl : (l.map tag).Nodup)
    (hl' : (l'.map tag).Nodup) (hkey : ∀ a ∈ l, f a ≠ [] ∧ ∀ b ∈ f a, key b = some (tag a))
    (hkey' : ∀ a ∈ l', f a ≠ [] ∧ ∀ b ∈ f a, key b = some (tag a))
    (h : l.flatMap f = l'.flatMap f)
    (hR : ∀ a ∈ l, ∀ a' ∈ l', tag a = tag a' → f a = f a' → R a a') : List.Forall₂ R l l' := by
  induction l generalizing l' with
  | nil =>
    cases l' with
    | nil => exact .nil
    | cons a' rest' =>
      rw [List.flatMap_nil, List.flatMap_cons] at h
      exact absurd (List.append_eq_nil_iff.mp h.symm).1 (hkey' a' (List.mem_cons_self ..)).1
  | cons a rest ih =>
    cases l' with
    | nil =>
      rw [List.flatMap_nil, List.flatMap_cons] at h
      exact absurd (List.append_eq_nil_iff.mp h).1 (hkey a (List.mem_cons_self ..)).1
    | cons a' rest' =>
      have hkeyed : ∀ m ∈ a :: rest, ∀ b ∈ f m, key b = some (tag m) := fun m hm => (hkey m hm).2
      have hkeyed' : ∀ m ∈ a' :: rest', ∀ b ∈ f m, key b = some (tag m) :=
        fun m hm => (hkey' m hm).2
      rw [List.map_cons, List.nodup_cons] at hl hl'
      rw [List.forall_mem_cons] at hkey hkey'
      have htag : tag a = tag a' := by
        have hhead := head?_flatMap_cons key rest hkey.1
        rw [h, head?_flatMap_cons key rest' hkey'.1, Option.some.injEq] at hhead
        exact hhead.symm
      have hfirst : f a = f a' := by
        have hfilter := filter_flatMap_cons key hl.1 hkeyed
        rw [h, htag, filter_flatMap_cons key hl'.1 hkeyed'] at hfilter
        exact hfilter.symm
      rw [List.flatMap_cons, List.flatMap_cons, hfirst, List.append_cancel_left_eq] at h
      refine .cons (hR a (List.mem_cons_self ..) a' (List.mem_cons_self ..) htag hfirst)
        (ih hl.2 hl'.2 hkey.2 hkey'.2 h fun m hm m' hm' => ?_)
      exact hR m (List.mem_cons_of_mem _ hm) m' (List.mem_cons_of_mem _ hm')

end wholes

/-- A node carries nothing but its kind, its text and its route. -/
theorem Content.Sound.eq {c c' : Content H} {path path' : List Char} (h : c.Sound path)
    (h' : c'.Sound path') (hkind : c.kind = c'.kind) (htext : c.text = c'.text)
    (hroute : c.routeAt path = c'.routeAt path) : c = c' := by
  have hlabel : c.label = c'.label := by rw [h.label, h'.label, htext]
  obtain ⟨hname, hpattern, hparams, hmethods⟩ : c.name = c'.name ∧ c.pattern = c'.pattern ∧
      c.params = c'.params ∧ c.methods = c'.methods := by
    cases hhas : c.hasRoute with
    | true =>
      rw [routeAt_of_hasRoute hhas] at hroute
      obtain ⟨-, hsame⟩ := routeAt_eq_some.mp hroute.symm
      obtain ⟨-, hname, hpattern, hparams, hmethods⟩ := Route.mk.inj hsame
      exact ⟨hname, hpattern, hparams, hmethods⟩
    | false =>
      rw [routeAt_eq_none hhas] at hroute
      have hhas' : c'.hasRoute = false := by
        cases hhas' : c'.hasRoute with
        | false => rfl
        | true =>
          rw [routeAt_of_hasRoute hhas'] at hroute
          cases hroute
      obtain ⟨hname, hpattern, hparams⟩ := h.plain hhas
      obtain ⟨hname', hpattern', hparams'⟩ := h'.plain hhas'
      rw [hasRoute, Bool.not_eq_false'] at hhas hhas'
      rw [hname, hname', hpattern, hpattern', hparams, hparams', Methods.eq_empty hhas,
        Methods.eq_empty hhas']
      exact ⟨rfl, rfl, rfl, rfl⟩
  cases c
  cases c'
  simp_all

/-- A node's own route and those below it can be told apart. -/
theorem Tree.routeAt_eq {n n' : Tree H} {above : List Char}
    (htext : n.content.text = n'.content.text) (hhas : n.content.hasRoute = n'.content.hasRoute)
    (hroutes : n.routesAt above = n'.routesAt above) :
    n.content.routeAt (above ++ n.content.text) = n'.content.routeAt (above ++ n.content.text) ∧
      n.children.flatMap (routesAt (above ++ n.content.text)) =
        n'.children.flatMap (routesAt (above ++ n.content.text)) := by
  rw [routesAt_eq, routesAt_eq, ← htext] at hroutes
  cases hroute : n.content.hasRoute with
  | true =>
    have hroute' := hhas.symm.trans hroute
    rw [Content.routeAt_of_hasRoute hroute, Content.routeAt_of_hasRoute hroute'] at hroutes ⊢
    obtain ⟨hown, hbelow⟩ := List.cons.inj hroutes
    exact ⟨congrArg some hown, hbelow⟩
  | false =>
    have hroute' := hhas.symm.trans hroute
    rw [Content.routeAt_eq_none hroute, Content.routeAt_eq_none hroute'] at hroutes ⊢
    exact ⟨rfl, hroutes⟩

/-- The character with which a path goes on behind another. -/
def next? (above path : List Char) : Option Char := (path.drop above.length).head?

theorem next?_append (above tail : List Char) (x : Char) :
    next? above (above ++ x :: tail) = some x := by simp [next?]

namespace Part
variable {whole whole' n n' m : Tree H} {C C' : Context H}

/-- What a child contributes to the routes of a node is told by its label. -/
theorem routesAt_child (h : Part whole C n) (hm : m ∈ n.children) :
    m.routesAt (C.above ++ n.content.text) ≠ [] ∧
      ∀ route ∈ m.routesAt (C.above ++ n.content.text),
        next? (C.above ++ n.content.text) route.path = some m.content.label := by
  obtain ⟨D, hD, habove, -⟩ := h.child hm
  obtain ⟨route, hroute⟩ := hD.exists_route
  rw [habove] at hroute
  refine ⟨List.ne_nil_of_mem hroute, fun route hroute => ?_⟩
  obtain ⟨tail, htail⟩ := h.path_of_child hm hroute
  rw [htail, next?_append]

/-- Two nodes with the same routes in the same order are the same but for the numbers. -/
theorem levels_eq (h : Part whole C n) (h' : Part whole' C' n') (habove : C'.above = C.above)
    (hlabel : n.content.label = n'.content.label)
    (hroutes : n.routesAt C.above = n'.routesAt C.above) (depth : Nat) :
    n.levels depth = n'.levels depth := by
  induction n using Tree.induction generalizing C C' n' depth with
  | step slot content children ih =>
    generalize hn : Tree.node slot content children = n at *
    have hpaths : ∀ path, path ∈ n.paths C.above ↔ path ∈ n'.paths C.above := by
      rw [Tree.paths, hroutes]
      exact fun path => .rfl
    have htext := h.text_eq h' habove hlabel hpaths
    obtain ⟨hown, hbelow⟩ :=
      Tree.routeAt_eq htext (h.hasRoute_eq h' habove hlabel hpaths) hroutes
    have hcontent : n.content = n'.content := by
      have hsound : n.content.Sound (C.above ++ n.content.text) := h.top.content
      have hsound' : n'.content.Sound (C'.above ++ n'.content.text) := h'.top.content
      rw [habove, ← htext] at hsound'
      exact hsound.eq hsound' (h.kind_eq h' hlabel) htext hown
    have hchildren : List.Forall₂ (fun m m' => m.levels (depth + 1) = m'.levels (depth + 1))
        n.children n'.children := by
      refine forall₂_of_flatMap_eq (fun route => next? (C.above ++ n.content.text) route.path)
        h.nodup_labels h'.nodup_labels (fun m hm => h.routesAt_child hm) (fun m' hm' => ?_) hbelow
        fun m hm m' hm' hsame hsameRoutes => ?_
      · rw [htext, ← habove]
        exact h'.routesAt_child hm'
      · obtain ⟨D, hD, hDabove, -⟩ := h.child hm
        obtain ⟨D', hD', hDabove', -⟩ := h'.child hm'
        have hmem : m ∈ children := by
          rw [← hn] at hm
          exact hm
        refine ih m hmem hD hD' ?_ hsame ?_ (depth + 1)
        · rw [hDabove, hDabove', habove, htext]
        · rw [hDabove]
          exact hsameRoutes
    rw [Tree.levels_eq, Tree.levels_eq, hcontent, List.flatMap_def, List.flatMap_def,
      map_eq_of_forall₂ hchildren]

end Part

/-! ### No routes -/

theorem Formed.part {n : Tree H} (h : Formed n) (hroutes : n.routes ≠ []) : Part n .hole n := by
  cases h with
  | bare => exact (hroutes rfl).elim
  | full hsound htight => exact ⟨rfl, hsound, htight⟩

theorem Formed.eq_bare {n : Tree H} (h : Formed n) (hroutes : n.routes = []) : n = Trie.bare := by
  cases h with
  | bare => rfl
  | full hsound htight =>
    have hpart : Part n .hole n := ⟨rfl, hsound, htight⟩
    obtain ⟨route, hroute⟩ := hpart.exists_route
    exact absurd hroutes (List.ne_nil_of_mem hroute)

/-- A trie is empty if it has no routes. -/
theorem Holds.isEmpty_eq {t : Trie H} {n : Tree H} (h : t.Holds n) (hn : Formed n) :
    t.isEmpty = n.routes.isEmpty := by
  have hnode := h.stored.node?_eq
  rw [show n.slot = root from h.rooted] at hnode
  rw [isEmpty, hnode]
  by_cases hroutes : n.routes = []
  · obtain rfl := hn.eq_bare hroutes
    rfl
  · obtain ⟨text, htext⟩ := (hn.part hroutes).top.content.text_eq
    simp [show n.content.text = _ from htext, hroutes]

end Routing.Trie

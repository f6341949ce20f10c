import Routing.Proofs.Trie.Visits
import Routing.Proofs.Trie.Prune

/-! What the loops come to that change a trie.

An insertion goes down as far as a path goes, and changes the trie where it ends; the path has
always something in common with the node it has come to, except at the root of an empty trie
(`Holds.insertSafe`). Pruning changes the trie in every turn, and the tries in between are closed
as well (`Holds.pruneSafe`). -/
namespace Routing.Trie
open Relation Text
variable {H : Type}

/-! ### Insertions -/

/-- A turn of `insertFrom?` that goes on. -/
inductive InsertTurn (t : Trie H) : Slot × List Char → Slot × List Char → Prop
  | child {slot child : Slot} {n : Node H} {path front rest : List Char} :
    t.node? slot = some n → sharedLength path n.text ≠ 0 →
    ¬ sharedLength path n.text < utf8Length n.text →
    sharedLength path n.text < utf8Length path →
    cut? path (sharedLength path n.text) = some (front, rest) →
    t.childLabelled? slot (labelOf rest) = some (some child) →
    InsertTurn t (slot, path) (child, rest)

/-- What an insertion relies on at a node that it comes to with the rest of a path. -/
structure InsertsAt (t : Trie H) (slot : Slot) (path : List Char) (n : Node H) : Prop where
  text_boundary : OnBoundary n.text (sharedLength path n.text)
  path_boundary : OnBoundary path (sharedLength path n.text)
  /-- Only with the root of an empty trie a path shares nothing. -/
  nothing : sharedLength path n.text = 0 → slot = root ∧ t.isEmpty = true
  split : sharedLength path n.text ≠ 0 → sharedLength path n.text < utf8Length n.text →
    ∃ t', t.split? slot (sharedLength path n.text) = some t' ∧ t'.Closed ∧ t'.InUse slot

/-- Putting a path in only uses places in use, and slices on boundaries. -/
structure InsertSafe (t : Trie H) (path : List Char) : Prop where
  closed : t.Closed
  visits : ∀ {slot : Slot} {rest : List Char},
    ReflTransGen t.InsertTurn (root, path) (slot, rest) →
      t.InUse slot ∧ ∀ {n : Node H}, t.node? slot = some n → t.InsertsAt slot rest n
  ends : ∀ (kind : Kind) (r : Option (Registration H)),
    ∃ last t', t.insert? kind path r = some (last, t') ∧ t'.Closed ∧ t'.InUse last

/-- A node in use, and the rest of a path that begins with its label. -/
structure Meets (t : Trie H) (slot : Slot) (path : List Char) : Prop where
  inUse : t.InUse slot
  path_ne_nil : path ≠ []
  label : ∀ {n : Node H}, t.node? slot = some n → labelOf path = n.label

section insert
variable {t : Trie H}

/-- An insertion comes to what its turns lead to. -/
theorem InsertTurn.eq {slot child : Slot} {path rest : List Char}
    (h : t.InsertTurn (slot, path) (child, rest)) (kind : Kind) (r : Option (Registration H)) :
    t.insertFrom? kind r slot path = t.insertFrom? kind r child rest := by
  cases h with
  | @child _ _ n _ front _ hnode hshared hwhole hmore hcut hchild =>
    obtain ⟨hpath, hlength⟩ := cut?_eq_some.mp hcut
    have hrest : rest ≠ [] := ne_nil_of_cut? hcut hmore
    have hfront : front ≠ [] := by
      rintro rfl
      exact hshared hlength
    rw [insertFrom?_eq hnode kind r hpath hfront hlength, if_neg (hlength ▸ hwhole),
      if_neg hrest, hchild]
    rfl

theorem Closed.insertTurns (hclosed : t.Closed) {s s' : Slot × List Char}
    (h : ReflTransGen t.InsertTurn s s') (hs : t.Meets s.1 s.2) : t.Meets s'.1 s'.2 := by
  induction h with
  | refl => exact hs
  | tail _ hturn ih =>
    cases hturn with
    | child hnode _ _ hmore hcut hchild =>
      obtain ⟨hinUse, m, hm, hlabel⟩ := hclosed.of_child? ih.inUse hchild
      refine ⟨hinUse, ne_nil_of_cut? hcut hmore, fun {n} hn => ?_⟩
      obtain rfl := Option.some.inj (hm.symm.trans hn)
      exact (eq_of_beq hlabel).symm

theorem Holds.insertsAt {n : Tree H} (h : t.Holds n) (hsound : ∀ c ∈ n.all, c.Sound) {slot : Slot}
    {path : List Char} (hmeets : t.Meets slot path) {node : Node H}
    (hnode : t.node? slot = some node) : t.InsertsAt slot path node := by
  obtain ⟨C, ⟨slot, c, children⟩, rfl, rfl⟩ :=
    Context.exists_plug_of_slot (h.inUse_iff.mp hmeets.inUse)
  obtain rfl : node = ⟨c, C.parent, children.map Tree.slot⟩ :=
    Option.some.inj (hnode.symm.trans h.node?_eq)
  have hlabel : labelOf path = c.label := hmeets.label hnode
  have hself : c.Sound (C.above ++ c.text) := (hsound _ Context.top_mem).content
  obtain ⟨shared, left, right, hpath, htext, hparted, hlength⟩ := exists_shared path c.text
  have hshared : shared ≠ [] := by
    refine shared_ne_nil (hpath ▸ hmeets.path_ne_nil) (htext ▸ hself.ne_nil) hparted ?_
    rw [← hpath, ← htext]
    exact hlabel.trans hself.label
  obtain ⟨hpathAt, htextAt⟩ := onBoundary_sharedLength path c.text
  refine ⟨htextAt, hpathAt, fun hzero => ?_, fun _ hinside => ?_⟩
  · exact (hshared (utf8Length_eq_zero.mp (hlength.symm.trans hzero))).elim
  · have hright : right ≠ [] := by
      have hshort : sharedLength path c.text < utf8Length c.text := hinside
      rw [hlength, htext] at hshort
      exact utf8Length_lt_append.mp hshort
    obtain ⟨lower, t', hsplit, hholds⟩ :=
      h.split htext (hself.static_of_inside htext hshared hright)
    exact ⟨t', hlength ▸ hsplit, hholds.closed, hholds.inUse⟩

/-- An insertion into an empty trie ends at the root. -/
theorem Holds.insertsAt_bare (h : t.Holds bare) {path rest : List Char} {slot : Slot}
    (hvisits : ReflTransGen t.InsertTurn (root, path) (slot, rest)) :
    t.InUse slot ∧ ∀ {n : Node H}, t.node? slot = some n → t.InsertsAt slot rest n := by
  have hroot : t.node? root = some .blank := h.node?_eq (C := .hole)
  have hzero : sharedLength path (Node.blank : Node H).text = 0 := sharedLength_nil path
  rcases hvisits.cases_head with heq | ⟨s, hturn, -⟩
  · obtain ⟨rfl, rfl⟩ := Prod.mk.inj heq
    refine ⟨h.inUse (C := .hole), fun {n} hnode => ?_⟩
    obtain rfl := Option.some.inj (hroot.symm.trans hnode)
    obtain ⟨hpathAt, htextAt⟩ := onBoundary_sharedLength path (Node.blank : Node H).text
    refine ⟨htextAt, hpathAt, fun _ => ⟨rfl, ?_⟩, fun hne => (hne hzero).elim⟩
    rw [isEmpty, hroot]
    rfl
  · cases hturn with
    | child hnode hshared =>
      obtain rfl := Option.some.inj (hroot.symm.trans hnode)
      exact (hshared hzero).elim

/-- A stretch of a path is put in safely behind those put in before it. -/
theorem Holds.insertSafe {n : Tree H} (h : t.Holds n) {pre stretch : List Char} {kind : Kind}
    (hn : Grown pre n) (hadds : Stop.Adds pre kind stretch) : t.InsertSafe (pre ++ stretch) := by
  rcases hn with ⟨-, rfl⟩ | hn
  · refine ⟨h.closed, h.insertsAt_bare, fun kind r => ?_⟩
    obtain ⟨t', hinsert, hholds⟩ := insert?_bare h kind r (pre ++ stretch)
    exact ⟨root, t', hinsert, hholds.closed, hholds.closed.root⟩
  · have hne : pre ++ stretch ≠ [] := List.append_ne_nil_of_right_ne_nil _ hadds.ne_nil
    have hlabel := hn.root_label hadds
    have hroot : t.node? root = some ⟨n.content, none, n.children.map Tree.slot⟩ :=
      h.rooted ▸ h.node?_eq (C := .hole)
    have hstart : t.Meets root (pre ++ stretch) := by
      refine ⟨h.closed.root, hne, fun {m} hnode => ?_⟩
      obtain rfl := Option.some.inj (hroot.symm.trans hnode)
      exact hlabel
    refine ⟨h.closed, fun {slot rest} hvisits => ?_, fun kind r => ?_⟩
    · have hmeets := h.closed.insertTurns hvisits hstart
      exact ⟨hmeets.inUse, fun {m} hnode => h.insertsAt hn.sound hmeets hnode⟩
    · obtain ⟨last, t', n', hinsert, hholds, hplanted⟩ :=
        Holds.insertFrom kind r (C := .hole) h hn.sound hne hlabel
      replace hplanted : Planted kind r (pre ++ stretch) last n n' := hplanted
      obtain ⟨c, hc, rfl, -⟩ := hplanted.reached
      rw [show n.slot = root from h.rooted] at hinsert
      exact ⟨_, t', hinsert, hholds.closed, hholds.inUse_iff.mpr (List.mem_map_of_mem hc)⟩

end insert

/-! ### Pruning -/

/-- A turn of `pruneFrom?` that goes on: the node's place is given back. -/
inductive PruneTurn : Trie H × Slot → Trie H × Slot → Prop
  | release {t t₁ t' : Trie H} {slot parent : Slot} {n : Node H} :
    t.node? slot = some n → n.hasRoute = false → n.children = [] → n.parent = some parent →
    t.removeChild? parent slot = some t₁ → t₁.release? slot = some t' →
    PruneTurn (t, slot) (t', parent)

/-- Pruning from a node on only uses places in use, and does not give the root's back. -/
structure PruneSafe (t : Trie H) (slot : Slot) : Prop where
  visits : ∀ {t' : Trie H} {slot' : Slot}, ReflTransGen PruneTurn (t, slot) (t', slot') →
    t'.Closed ∧ t'.InUse slot' ∧ ∀ {s : Trie H × Slot}, PruneTurn (t', slot') s → slot' ≠ root
  ends : ∃ t', t.prune? slot = some t' ∧ t'.Closed

section prune
variable {t t' : Trie H}

/-- Pruning goes on by a turn, or ends here however many turns are left. -/
theorem pruneFrom?_turn (t : Trie H) (slot : Slot) :
    (∃ t' parent, PruneTurn (t, slot) (t', parent) ∧
      ∀ turns, t.pruneFrom? (turns + 1) slot = t'.pruneFrom? turns parent) ∨
    ∃ result, ∀ turns, t.pruneFrom? (turns + 1) slot = result := by
  cases hnode : t.node? slot with
  | none => exact .inr ⟨none, fun turns => by rw [pruneFrom?, hnode]; rfl⟩
  | some n =>
    simp only [pruneFrom?, hnode, Option.bind_eq_bind, Option.bind_some]
    cases hroute : n.hasRoute with
    | true => exact .inr ⟨_, fun _ => rfl⟩
    | false =>
      simp only [Bool.false_eq_true, if_false]
      rcases hchildren : n.children with - | ⟨child, - | ⟨other, rest⟩⟩
      · rcases hparent : n.parent with - | parent
        · exact .inr ⟨_, fun _ => rfl⟩
        · simp only
          rcases hremove : t.removeChild? parent slot with - | t₁
          · exact .inr ⟨none, fun _ => rfl⟩
          · simp only [Option.bind_some]
            rcases hrelease : t₁.release? slot with - | t'
            · exact .inr ⟨none, fun _ => rfl⟩
            · exact .inl ⟨t', parent,
                .release hnode hroute hchildren hparent hremove hrelease, fun _ => rfl⟩
      · exact .inr ⟨_, fun _ => rfl⟩
      · exact .inr ⟨_, fun _ => rfl⟩

/-- A trie that holds a tree does so after the node in a context has gone, and the loop has come
to the node above. -/
theorem Holds.pruneTurn {C : Context H} {n : Tree H} (h : t.Holds (C.plug n)) {parent : Slot}
    (hturn : PruneTurn (t, n.slot) (t', parent)) :
    ∃ (D : Context H) (m : Tree H), t'.Holds (D.plug m) ∧ m.slot = parent := by
  cases hturn with
  | release hnode _ hchildren hparent hremove hrelease =>
    obtain ⟨leaf, d, children⟩ := n
    obtain rfl := Option.some.inj (hnode.symm.trans h.node?_eq)
    obtain rfl : children = [] := List.map_eq_nil_iff.mp hchildren
    cases C with
    | hole => cases hparent
    | under outer slot c left right =>
      obtain rfl : slot = parent := Option.some.inj hparent
      obtain ⟨t'', hdrop, hholds⟩ := h.dropLeaf
      have hsame : (t.removeChild? slot leaf).bind (·.release? leaf) = some t' :=
        Option.bind_eq_some_iff.mpr ⟨_, hremove, hrelease⟩
      obtain rfl := Option.some.inj (hdrop.symm.trans hsame)
      exact ⟨outer, .node slot c (left ++ right), hholds, rfl⟩

/-- The place given back is not in use any more. -/
theorem PruneTurn.mem_free {slot parent : Slot} (h : PruneTurn (t, slot) (t', parent)) :
    slot ∈ t'.free := by
  cases h with
  | release _ _ _ _ _ hrelease =>
    obtain ⟨t₂, -, heq⟩ := Option.bind_eq_some_iff.mp hrelease
    obtain rfl := Option.some.inj heq
    exact List.mem_cons_self ..

theorem Holds.pruneTurns {C : Context H} {n : Tree H} (h : t.Holds (C.plug n)) {slot : Slot}
    (hturns : ReflTransGen PruneTurn (t, n.slot) (t', slot)) :
    ∃ (D : Context H) (m : Tree H), t'.Holds (D.plug m) ∧ m.slot = slot := by
  generalize hs : (t', slot) = s at hturns
  induction hturns generalizing t' slot with
  | refl =>
    obtain ⟨rfl, rfl⟩ := Prod.mk.inj hs
    exact ⟨C, n, h, rfl⟩
  | @tail mid _ _ hturn ih =>
    subst hs
    obtain ⟨D, m, hholds, hslot⟩ := ih rfl
    exact hholds.pruneTurn (hslot ▸ hturn)

theorem Holds.pruneSafe {C : Context H} {n : Tree H} (h : t.Holds (C.plug n)) :
    t.PruneSafe n.slot where
  visits := by
    intro t' slot' hvisits
    obtain ⟨D, m, hholds, rfl⟩ := h.pruneTurns hvisits
    refine ⟨hholds.closed, hholds.inUse, ?_⟩
    rintro ⟨t'', parent⟩ hturn hroot
    obtain ⟨_, _, hholds', -⟩ := hholds.pruneTurn hturn
    exact hholds'.closed.root.kept (hroot ▸ hturn.mem_free)
  ends := by
    obtain ⟨t', hprune, hholds⟩ := h.prune
    exact ⟨t', hprune, hholds.closed⟩

end prune

end Routing.Trie

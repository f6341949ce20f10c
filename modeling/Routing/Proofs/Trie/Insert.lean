import Routing.Proofs.Text.Offsets
import Routing.Proofs.Trie.Edits
import Routing.Proofs.Trie.Sound

/-! What an insertion does to the tree.

An insertion changes the tree in one place, in one of five ways (`Planted`). Which way it is,
and that the stored nodes follow, comes from the loop: at the node it has come to, the path
above and the path still to go are the whole path, and the node's text begins with the
character that comes next (`Holds.insertFrom`). -/
namespace Routing.Trie
variable {H : Type}

/-- What putting a path in makes of a tree, and the node at which it ends. -/
inductive Planted (kind : Kind) (r : Option (Registration H)) (path : List Char) :
    Slot → Tree H → Tree H → Prop
  /-- The first path goes to the root. -/
  | first : Planted kind r path root bare (.node root ((Content.plain kind path).register r) [])
  /-- There is a node with the path. -/
  | here {C : Context H} {slot : Slot} {c : Content H} {children : List (Tree H)} :
    C.above ++ c.text = path →
    Planted kind r path slot (C.plug (.node slot c children))
      (C.plug (.node slot (c.register r) children))
  /-- The path goes on behind a node, and no child goes on with it. -/
  | leaf {C : Context H} {slot leaf : Slot} {c : Content H} {children : List (Tree H)}
    {rest : List Char} : C.above ++ c.text ++ rest = path → rest ≠ [] →
    (∀ m ∈ children, m.content.label ≠ labelOf rest) →
    Planted kind r path leaf (C.plug (.node slot c children)) (C.plug (.node slot c
      (children ++ [.node leaf ((Content.plain kind rest).register r) []])))
  /-- The path ends inside a node's text. -/
  | cut {C : Context H} {slot lower : Slot} {c : Content H} {children : List (Tree H)}
    {front back : List Char} : c.kind = .static → c.text = front ++ back → front ≠ [] →
    back ≠ [] → C.above ++ front = path →
    Planted kind r path slot (C.plug (.node slot c children)) (C.plug (.node slot
      ((c.upper front).register r) [.node lower (c.lower back) children]))
  /-- The path goes on inside a node's text with another character. -/
  | fork {C : Context H} {slot lower leaf : Slot} {c : Content H} {children : List (Tree H)}
    {front back rest : List Char} : c.kind = .static → c.text = front ++ back → front ≠ [] →
    back ≠ [] → C.above ++ front ++ rest = path → rest ≠ [] → labelOf back ≠ labelOf rest →
    Planted kind r path leaf (C.plug (.node slot c children)) (C.plug (.node slot (c.upper front)
      [.node lower (c.lower back) children,
        .node leaf ((Content.plain kind rest).register r) []]))

/-- One turn of the loop. -/
theorem insertFrom?_eq {t : Trie H} {slot : Slot} {n : Node H} (hn : t.node? slot = some n)
    (kind : Kind) (r : Option (Registration H)) {path shared left : List Char}
    (hpath : path = shared ++ left) (hne : shared ≠ [])
    (hlength : Text.sharedLength path n.text = Text.utf8Length shared) :
    t.insertFrom? kind r slot path =
      if Text.utf8Length shared < Text.utf8Length n.text then
        (t.split? slot (Text.utf8Length shared)).bind fun t =>
          if left = [] then t.register? slot r else t.addLeaf? slot kind left r
      else if left = [] then t.register? slot r
      else (t.childLabelled? slot (labelOf left)).bind fun child =>
        match child with
        | some child => t.insertFrom? kind r child left
        | none => t.addLeaf? slot kind left r := by
  have hpos : Text.utf8Length shared ≠ 0 := fun h => hne (Text.utf8Length_eq_zero.mp h)
  have hcut : Text.cut? path (Text.utf8Length shared) = some (shared, left) :=
    hpath ▸ Text.cut?_append shared left
  have hall : Text.utf8Length path = Text.utf8Length shared + Text.utf8Length left :=
    hpath ▸ Text.utf8Length_append shared left
  have hleft : left = [] ↔ Text.utf8Length left = 0 := Text.utf8Length_eq_zero.symm
  rw [insertFrom?]
  split
  · next hnone =>
    rw [hn] at hnone
    cases hnone
  · next n' hn' =>
    obtain rfl : n = n' := Option.some.inj (hn.symm.trans hn')
    simp only [hlength, hpos, dite_false]
    by_cases hinside : Text.utf8Length shared < Text.utf8Length n.text
    · rw [if_pos hinside, if_pos hinside]
      refine congrArg _ (funext fun t => ?_)
      by_cases hend : left = []
      · rw [if_pos hend, if_pos]
        rw [hleft] at hend
        omega
      · rw [if_neg hend, if_neg, hcut]
        · rfl
        · rw [hleft] at hend
          omega
    · rw [if_neg hinside, if_neg hinside]
      by_cases hend : left = []
      · rw [if_pos hend, if_neg]
        rw [hleft] at hend
        omega
      · rw [if_neg hend, if_pos (by rw [hleft] at hend; omega)]
        split
        · next h =>
          rw [hlength, hcut] at h
          cases h
        · next front rest h =>
          rw [hlength, hcut] at h
          cases h
          split
          · next h => rw [h]; rfl
          · next h => rw [h]; rfl
          · next h => rw [h]; rfl

theorem Holds.register {t : Trie H} {C : Context H} {slot : Slot} {c : Content H}
    {children : List (Tree H)} (h : t.Holds (C.plug (.node slot c children)))
    (r : Option (Registration H)) :
    ∃ t', t.register? slot r = some (slot, t') ∧
      t'.Holds (C.plug (.node slot (c.register r) children)) := by
  refine ⟨_, Option.bind_eq_some_iff.mpr ⟨_, change?_eq h.node?_eq _, rfl⟩,
    h.setContent (c.register r) ?_⟩
  cases r <;> rfl

theorem labelOf_ne {left right : List Char} (hleft : left ≠ []) (hright : right ≠ [])
    (h : ∀ x l y r, left = x :: l → right = y :: r → x ≠ y) : labelOf left ≠ labelOf right := by
  obtain ⟨x, l, rfl⟩ := List.exists_cons_of_ne_nil hleft
  obtain ⟨y, r, rfl⟩ := List.exists_cons_of_ne_nil hright
  exact h x l y r rfl rfl

/-- Texts with the same first character have something in common. -/
theorem shared_ne_nil {shared left right : List Char} (hleft : shared ++ left ≠ [])
    (hright : shared ++ right ≠ []) (hparted : Text.Parted left right)
    (hlabel : labelOf (shared ++ left) = labelOf (shared ++ right)) : shared ≠ [] := by
  rintro rfl
  exact labelOf_ne hleft hright hparted hlabel

/-- Only a static node has a text to end inside of. -/
theorem Content.Sound.static_of_inside {c : Content H} {path front back : List Char}
    (h : c.Sound path) (htext : c.text = front ++ back) (hfront : front ≠ []) (hback : back ≠ []) :
    c.kind = .static := by
  have hfits := h.fits
  obtain ⟨x, front, rfl⟩ := List.exists_cons_of_ne_nil hfront
  obtain ⟨y, back, rfl⟩ := List.exists_cons_of_ne_nil hback
  cases hkind : c.kind with
  | static => rfl
  | param =>
    rw [hkind, htext] at hfits
    exact absurd (congrArg List.length hfits) (by simp)
  | wildcard =>
    rw [hkind, htext] at hfits
    exact absurd (congrArg List.length hfits) (by simp)

/-- A path that ends inside a node's text, or leaves it there. -/
theorem Holds.insertInside (kind : Kind) (r : Option (Registration H)) {t : Trie H} {C : Context H}
    {slot : Slot} {c : Content H} {children : List (Tree H)}
    (h : t.Holds (C.plug (.node slot c children))) (hkind : c.kind = .static)
    {shared left right : List Char} (htext : c.text = shared ++ right) (hshared : shared ≠ [])
    (hright : right ≠ []) (hparted : ∀ x l y r, left = x :: l → right = y :: r → x ≠ y) :
    ∃ e t' after, ((t.split? slot (Text.utf8Length shared)).bind fun t =>
        if left = [] then t.register? slot r else t.addLeaf? slot kind left r) = some (e, t') ∧
      t'.Holds after ∧
      Planted kind r (C.above ++ (shared ++ left)) e (C.plug (.node slot c children)) after := by
  obtain ⟨lower, t₁, hsplit, hholds₁⟩ := h.split htext hkind
  rw [hsplit, Option.bind_some]
  by_cases hleft : left = []
  · rw [if_pos hleft]
    obtain ⟨t', hregister, hholds⟩ := hholds₁.register r
    refine ⟨slot, t', _, hregister, hholds, .cut hkind htext hshared hright ?_⟩
    rw [hleft, List.append_nil]
  · rw [if_neg hleft]
    obtain ⟨leaf, t', hadd, hholds⟩ := hholds₁.addLeaf kind left r
    refine ⟨leaf, t', _, hadd, hholds, .fork hkind htext hshared hright ?_ hleft ?_⟩
    · rw [List.append_assoc]
    · exact (labelOf_ne hleft hright hparted).symm

/-- From the node in a context the rest of a path goes in, if its first character is that of
the node. -/
theorem Holds.insertFrom (kind : Kind) (r : Option (Registration H)) {t : Trie H}
    {C : Context H} {n : Tree H} {path : List Char} (h : t.Holds (C.plug n))
    (hsound : ∀ c ∈ n.cells C.above C.parent, c.Sound) (hne : path ≠ [])
    (hlabel : labelOf path = n.content.label) :
    ∃ e t' after, t.insertFrom? kind r n.slot path = some (e, t') ∧ t'.Holds after ∧
      Planted kind r (C.above ++ path) e (C.plug n) after := by
  induction hsize : path.length using Nat.strongRecOn generalizing C n path with
  | _ size ih =>
  obtain ⟨slot, c, children⟩ := n
  have hself : c.Sound (C.above ++ c.text) := (hsound _ Tree.top_mem).content
  obtain ⟨shared, left, right, hpath, htext, hparted, hlength⟩ := Text.exists_shared path c.text
  have hshared : shared ≠ [] := by
    refine shared_ne_nil (hpath ▸ hne) (htext ▸ hself.ne_nil) hparted ?_
    rw [← hpath, ← htext]
    exact hlabel.trans hself.label
  have hinside : Text.utf8Length shared < Text.utf8Length c.text ↔ right ≠ [] := by
    rw [htext]
    exact Text.utf8Length_lt_append
  have hnode : t.node? slot = some ⟨c, C.parent, children.map Tree.slot⟩ := h.node?_eq
  rw [Tree.slot_node, insertFrom?_eq hnode kind r hpath hshared hlength]
  by_cases hright : right = []
  · rw [if_neg (fun hlt => hinside.mp hlt hright)]
    rw [hright, List.append_nil] at htext
    by_cases hleft : left = []
    · rw [if_pos hleft]
      obtain ⟨t', hregister, hholds⟩ := h.register r
      refine ⟨slot, t', _, hregister, hholds, .here ?_⟩
      rw [htext, hpath, hleft, List.append_nil]
    · have hchild : t.childLabelled? slot (labelOf left) =
          some ((children.find? fun m => m.content.label == labelOf left).map Tree.slot) :=
        h.part.child?_eq _
      rw [if_neg hleft, hchild, Option.bind_some]
      cases hfind : children.find? fun m => m.content.label == labelOf left with
      | some m =>
        have hnext : (m.content.label == labelOf left) = true :=
          List.find?_some (p := fun m : Tree H => m.content.label == labelOf left) hfind
        obtain ⟨before, behind, hsplit⟩ := List.append_of_mem (List.mem_of_find?_eq_some hfind)
        subst hsplit
        obtain ⟨e, t', after, hinsert, hholds, hplanted⟩ := ih left.length
          (by rw [← hsize, hpath, List.length_append]
              have := List.length_pos_of_ne_nil hshared
              omega)
          (C := C.under slot c before behind) (n := m) h
          (fun d hd => hsound d (Tree.mem_cells_of_child
            (List.mem_append_right _ (List.mem_cons_self ..)) hd))
          hleft (eq_of_beq hnext).symm rfl
        refine ⟨e, t', after, hinsert, hholds, ?_⟩
        rw [hpath, ← htext, ← List.append_assoc]
        exact hplanted
      | none =>
        obtain ⟨leaf, t', hadd, hholds⟩ := h.addLeaf kind left r
        refine ⟨leaf, t', _, hadd, hholds, .leaf ?_ hleft fun m hm heq => ?_⟩
        · rw [htext, hpath, List.append_assoc]
        · exact List.find?_eq_none.mp hfind m hm (beq_iff_eq.mpr heq)
  · rw [if_pos (hinside.mpr hright), hpath]
    have hkind := hself.static_of_inside htext hshared hright
    exact h.insertInside kind r hkind htext hshared hright hparted

/-- The root of a trie without routes takes the path whole. -/
theorem insert?_bare {t : Trie H} (h : t.Holds bare) (kind : Kind)
    (r : Option (Registration H)) (path : List Char) :
    ∃ t', t.insert? kind path r = some (root, t') ∧
      t'.Holds (.node root ((Content.plain kind path).register r) []) := by
  have hroot : t.node? root = some .blank := Holds.node?_eq (C := .hole) (n := bare) h
  refine ⟨_, ?_, Holds.setContent (C := .hole) h _ rfl⟩
  rw [insert?, insertFrom?]
  split
  · next hnone =>
    rw [hroot] at hnone
    cases hnone
  · next n hn =>
    obtain rfl : Node.blank = n := Option.some.inj (hroot.symm.trans hn)
    have hlength : Text.sharedLength path (Node.blank : Node H).text = 0 :=
      Text.sharedLength_nil path
    simp only [hlength, dite_true, change?_eq hroot]
    rfl

end Routing.Trie

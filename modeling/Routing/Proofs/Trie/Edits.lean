import Routing.Proofs.Trie.Holds
import Routing.Proofs.Text.Offsets
import Routing.Trie.Insert

/-! Edits of a stored node.

An operation on a trie ends in a few edits at the place its loop has come to: the node's
content changes, a leaf comes in behind its children or goes, the node is split, or its only
child is merged into it. Each is done on the stored nodes by a handful of writes, and each
turns a trie that holds a tree into one that holds the edited tree. What the writes leave
alone is the rest of the tree, because no place is used twice. -/
namespace Routing.Trie
variable {H : Type}

/-! ### The content -/

theorem Holds.setContent {t : Trie H} {C : Context H} {slot : Slot} {c : Content H}
    {children : List (Tree H)} (h : t.Holds (C.plug (.node slot c children))) (c' : Content H)
    (hkid : C.before ⟨slot, c'.kind, c'.label⟩ = C.before ⟨slot, c.kind, c.label⟩) :
    (t.set slot ⟨c', C.parent, children.map Tree.slot⟩).Holds
      (C.plug (.node slot c' children)) := by
  have hnode := node?_set t ⟨c', C.parent, children.map Tree.slot⟩ (lt_of_node? h.node?_eq)
  have hkept {s : Slot} (hs : s ≠ slot) :
      (t.set slot ⟨c', C.parent, children.map Tree.slot⟩).node? s = t.node? s :=
    (hnode s).trans (if_neg hs)
  refine h.exchange hkid rfl (fun s hs => hkept (h.ne_of_around hs)) (stores_iff.mpr ⟨?_, ?_⟩) ?_ ?_
  · exact (hnode slot).trans (if_pos rfl)
  · exact fun m hm => (h.part.child hm).frame fun s hs => hkept (h.ne_of_child hm hs)
  · simp
  · intro s hs
    rw [hkept (h.ne_of_free hs)]
    exact h.blank s hs

/-! ### A new leaf -/

/-- A place was given out, and a node stored there. -/
structure Taken (t : Trie H) (n : Node H) (slot : Slot) (t' : Trie H) : Prop where
  node? : ∀ s, t'.node? s = if s = slot then some n else t.node? s
  free : ∀ s ∈ t'.free, s ∈ t.free ∧ s ≠ slot
  slots : (slot :: t'.free ++ List.range t.nodes.size).Perm
    (t.free ++ List.range t'.nodes.size)

/-- A place given out is one that is not in use. -/
theorem alloc?_eq {t : Trie H} {used : List Slot}
    (h : (used ++ t.free).Perm (List.range t.nodes.size)) (n : Node H) :
    ∃ slot t', t.alloc? n = some (slot, t') ∧ slot ∉ used ∧ t.Taken n slot t' := by
  have hmem (s : Slot) : s ∈ used ++ t.free ↔ s < t.nodes.size := h.mem_iff.trans List.mem_range
  have hnodup := h.nodup_iff.mpr List.nodup_range
  cases hfree : t.free with
  | nil =>
    have hfresh : t.nodes.size ∉ used := fun hs =>
      absurd ((hmem _).mp (List.mem_append_left _ hs)) (Nat.lt_irrefl _)
    refine ⟨t.nodes.size, { t with nodes := t.nodes.push n }, by rw [alloc?, hfree], hfresh,
      ?_, ?_, ?_⟩
    · intro s
      rw [Trie.node?, Array.getElem?_push]
      rfl
    · intro s hs
      rw [hfree] at hs
      cases hs
    · rw [Array.size_push, List.range_succ, hfree]
      exact (List.perm_append_singleton ..).symm
  | cons slot free =>
    have hlt : slot < t.nodes.size := (hmem slot).mp (by rw [hfree]; simp)
    rw [hfree, List.nodup_append] at hnodup
    obtain ⟨-, hnodup, hdisjoint⟩ := hnodup
    refine ⟨slot, { t.set slot n with free }, ?_, fun hs => hdisjoint _ hs _ (by simp) rfl,
      ?_, ?_, ?_⟩
    · simp only [alloc?, hfree, put?_eq n hlt]
      rfl
    · exact node?_set t n hlt
    · intro s hs
      rw [hfree]
      exact ⟨List.mem_cons_of_mem _ hs, fun heq => (List.nodup_cons.mp hnodup).1 (heq ▸ hs)⟩
    · rw [size_set, hfree]

/-- A node put behind the children of another. -/
theorem addChild?_eq {t : Trie H} {parent child : Slot} {n m : Node H} (hne : parent ≠ child)
    (hparent : t.node? parent = some n) (hchild : t.node? child = some m) :
    ∃ t', t.addChild? parent child = some t' ∧ t'.free = t.free ∧ t'.nodes.size = t.nodes.size ∧
      ∀ s, t'.node? s =
        if s = parent then some { n with children := n.children ++ [child] }
        else if s = child then some { m with parent := some parent }
        else t.node? s := by
  let t₁ := t.set child { m with parent := some parent }
  have hnode₁ := node?_set t { m with parent := some parent } (lt_of_node? hchild)
  have hparent₁ : t₁.node? parent = some n := by
    rw [hnode₁, if_neg hne, hparent]
  refine ⟨t₁.set parent { n with children := n.children ++ [child] }, ?_, rfl, ?_, fun s => ?_⟩
  · rw [addChild?, change?_eq hchild]
    exact change?_eq hparent₁ _
  · rw [size_set, size_set]
  · rw [node?_set _ _ (lt_of_node? hparent₁), hnode₁]

/-- A new node without children behind those of another. -/
theorem Holds.addLeaf {t : Trie H} {C : Context H} {slot : Slot} {c : Content H}
    {children : List (Tree H)} (h : t.Holds (C.plug (.node slot c children))) (kind : Kind)
    (path : List Char) (r : Option (Registration H)) :
    ∃ leaf t', t.addLeaf? slot kind path r = some (leaf, t') ∧ t'.Holds (C.plug (.node slot c
      (children ++ [.node leaf ((Content.plain kind path).register r) []]))) := by
  obtain ⟨leaf, t₁, halloc, hfresh, htaken⟩ :=
    alloc?_eq h.slots ⟨(Content.plain kind path).register r, none, []⟩
  rw [(C.slots_plug _).mem_iff, List.mem_append, not_or] at hfresh
  have hne : slot ≠ leaf := fun heq => hfresh.1 (heq ▸ Tree.slot_mem_slots _)
  have hslot : t₁.node? slot = some ⟨c, C.parent, children.map Tree.slot⟩ := by
    rw [htaken.node?, if_neg hne]
    exact h.node?_eq
  have hleaf := (htaken.node? leaf).trans (if_pos rfl)
  obtain ⟨t', hadd, hfree, hsize, hnode⟩ := addChild?_eq hne hslot hleaf
  have hkept {s : Slot} (hs : s ≠ slot) (hl : s ≠ leaf) : t'.node? s = t.node? s := by
    rw [hnode, if_neg hs, if_neg hl, htaken.node?, if_neg hl]
  refine ⟨leaf, t', ?_, h.exchange rfl rfl (fun s hs => hkept (h.ne_of_around hs) ?_)
    (stores_iff.mpr ⟨?_, fun m hm => ?_⟩) ?_ fun s hs => ?_⟩
  · rw [addLeaf?, halloc]
    simp only [Option.bind_eq_bind, Option.bind_some, hadd]
    rfl
  · rintro rfl
    exact hfresh.2 hs
  · rw [Tree.slot_node, hnode, if_pos rfl, Tree.children_node, List.map_append]
    rfl
  · rcases List.mem_append.mp hm with hold | hnew
    · refine (h.part.child hold).frame fun s hs => hkept (h.ne_of_child hold hs) ?_
      rintro rfl
      exact hfresh.1 (Tree.mem_slots_of_child hold hs)
    · obtain rfl := List.mem_singleton.mp hnew
      refine stores_iff.mpr ⟨?_, fun m hm => by cases hm⟩
      rw [Tree.slot_node, hnode, if_neg hne.symm, if_pos rfl]
      rfl
  · have hslots := htaken.slots
    simp only [List.perm_iff_count, Tree.slots_node, List.flatMap_append, List.flatMap_cons,
      List.flatMap_nil, hsize, hfree, List.count_append, List.count_cons, List.count_nil]
      at hslots ⊢
    intro a
    have := hslots a
    omega
  · rw [hfree] at hs
    obtain ⟨hs, hl⟩ := htaken.free s hs
    rw [hkept (h.ne_of_free hs) hl]
    exact h.blank s hs

/-! ### Another parent -/

theorem adopt?_eq (parent : Slot) : ∀ (slots : List Slot) {t : Trie H},
    (∀ s ∈ slots, (t.node? s).isSome) →
      ∃ t', t.adopt? parent slots = some t' ∧ t'.free = t.free ∧ t'.nodes.size = t.nodes.size ∧
        ∀ s, t'.node? s =
          if s ∈ slots then (t.node? s).map fun n => { n with parent := some parent }
          else t.node? s
  | [], t, _ => ⟨t, rfl, rfl, rfl, fun s => by simp⟩
  | child :: rest, t, h => by
    obtain ⟨n, hn⟩ := Option.isSome_iff_exists.mp (h child (List.mem_cons_self ..))
    have hnode := node?_set t { n with parent := some parent } (lt_of_node? hn)
    obtain ⟨t', hadopt, hfree, hsize, hnode'⟩ := adopt?_eq parent rest
      (t := t.set child { n with parent := some parent }) fun s hs => by
        rw [hnode]
        split
        · rfl
        · exact h s (List.mem_cons_of_mem _ hs)
    refine ⟨t', ?_, hfree, hsize.trans (size_set ..), fun s => ?_⟩
    · rw [adopt?, change?_eq hn]
      exact hadopt
    · rw [hnode', hnode]
      by_cases hs : s = child
      · subst hs
        by_cases hrest : s ∈ rest <;> simp [hn, hrest]
      · simp [hs]

/-- Among nodes that share no place, none is below another. -/
theorem slot_eq_of_mem {nodes : List (Tree H)} (hnodup : (nodes.flatMap Tree.slots).Nodup)
    {n m : Tree H} (hn : n ∈ nodes) (hm : m ∈ nodes) (h : m.slot ∈ n.slots) :
    m.slot = n.slot := by
  induction nodes with
  | nil => cases hn
  | cons first rest ih =>
    rw [List.flatMap_cons] at hnodup
    have hdisjoint := List.disjoint_of_nodup_append hnodup
    rcases List.mem_cons.mp hn with rfl | hn'
    · rcases List.mem_cons.mp hm with rfl | hm'
      · rfl
      · exact (hdisjoint h (List.mem_flatMap_of_mem hm' (Tree.slot_mem_slots _))).elim
    · rcases List.mem_cons.mp hm with rfl | hm'
      · exact (hdisjoint (Tree.slot_mem_slots _) (List.mem_flatMap_of_mem hn' h)).elim
      · exact ih hnodup.of_append_right hn' hm'

/-- Children that get another parent are stored with it. -/
theorem stores_adopted {t t' : Trie H} {parent : Option Slot} {nodes : List (Tree H)}
    (h : ∀ n ∈ nodes, t.Stores parent n) (hnodup : (nodes.flatMap Tree.slots).Nodup)
    {parent' : Slot} (hnode : ∀ s ∈ nodes.flatMap Tree.slots, t'.node? s =
      if s ∈ nodes.map Tree.slot then (t.node? s).map fun n => { n with parent := some parent' }
      else t.node? s) : ∀ n ∈ nodes, t'.Stores (some parent') n := by
  intro n hn
  have hself := (List.nodup_flatMap.mp hnodup).1 n hn
  rw [Tree.slots_eq, List.nodup_cons] at hself
  refine stores_iff.mpr ⟨?_, fun m hm => ((h n hn).child hm).frame fun s hs => ?_⟩
  · rw [hnode _ (List.mem_flatMap_of_mem hn (Tree.slot_mem_slots _)),
      if_pos (List.mem_map_of_mem hn), (h n hn).node?_eq]
    rfl
  · have hin : s ∈ n.slots := by
      rw [Tree.slots_eq]
      exact List.mem_cons_of_mem _ (List.mem_flatMap_of_mem hm hs)
    rw [hnode _ (List.mem_flatMap_of_mem hn hin), if_neg]
    intro hs'
    obtain ⟨other, hother, rfl⟩ := List.mem_map.mp hs'
    rw [slot_eq_of_mem hnodup hn hother hin] at hs
    exact hself.1 (List.mem_flatMap_of_mem hm hs)

/-! ### Splitting -/

/-- What a split writes: a new node below the old one, and for the old children another
parent. -/
theorem Holds.split?_eq {t : Trie H} {C : Context H} {slot : Slot} {c : Content H}
    {children : List (Tree H)} (h : t.Holds (C.plug (.node slot c children)))
    {front back : List Char}
    (htext : c.text = front ++ back) :
    ∃ lower t', t.split? slot (Text.utf8Length front) = some t' ∧
      lower ∉ (C.plug (.node slot c children)).slots ∧
      (∀ s ∈ t'.free, s ∈ t.free ∧ s ≠ lower) ∧
      (lower :: t'.free ++ List.range t.nodes.size).Perm (t.free ++ List.range t'.nodes.size) ∧
      ∀ s, t'.node? s =
        if s = slot then some ⟨c.upper front, C.parent, [lower]⟩
        else if s = lower then some ⟨c.lower back, some slot, children.map Tree.slot⟩
        else if s ∈ children.map Tree.slot then
          (t.node? s).map fun n => { n with parent := some lower }
        else t.node? s := by
  have hnode : t.node? slot = some ⟨c, C.parent, children.map Tree.slot⟩ := h.node?_eq
  have hlt : slot < t.nodes.size := lt_of_node? hnode
  have hused {s : Slot} (hs : s ∈ (Tree.node slot c children).slots) :
      s ∈ (C.plug (.node slot c children)).slots :=
    (C.slots_plug _).mem_iff.mpr (List.mem_append_left _ hs)
  let t₁ := t.set slot ⟨c.upper front, C.parent, []⟩
  have hslots : ((C.plug (.node slot c children)).slots ++ t₁.free).Perm
      (List.range t₁.nodes.size) := by
    rw [size_set, free_set]
    exact h.slots
  obtain ⟨lower, t₂, halloc, hfresh, htaken⟩ :=
    alloc?_eq hslots ⟨c.lower back, some slot, children.map Tree.slot⟩
  have hne : slot ≠ lower := fun heq => hfresh (heq ▸ hused (Tree.slot_mem_slots _))
  have hnode₂ (s : Slot) : t₂.node? s =
      if s = lower then some ⟨c.lower back, some slot, children.map Tree.slot⟩
      else if s = slot then some ⟨c.upper front, C.parent, []⟩ else t.node? s := by
    rw [htaken.node?, node?_set _ _ hlt]
  have hchild {s : Slot} (hs : s ∈ children.map Tree.slot) : s ≠ lower ∧ s ≠ slot := by
    obtain ⟨m, hm, rfl⟩ := List.mem_map.mp hs
    refine ⟨fun heq => hfresh (heq ▸ hused ?_), h.ne_of_child hm (Tree.slot_mem_slots m)⟩
    exact Tree.mem_slots_of_child hm (Tree.slot_mem_slots m)
  obtain ⟨t₃, hadopt, hfree₃, hsize₃, hnode₃⟩ := adopt?_eq lower (children.map Tree.slot) (t := t₂)
    fun s hs => by
      rw [hnode₂, if_neg (hchild hs).1, if_neg (hchild hs).2]
      obtain ⟨m, hm, rfl⟩ := List.mem_map.mp hs
      rw [(h.part.child hm).node?_eq]
      rfl
  have hlower : t₃.node? lower = some ⟨c.lower back, some slot, children.map Tree.slot⟩ := by
    rw [hnode₃, if_neg fun hs => (hchild hs).1 rfl, hnode₂, if_pos rfl]
  have hupper : t₃.node? slot = some ⟨c.upper front, C.parent, []⟩ := by
    rw [hnode₃, if_neg fun hs => (hchild hs).2 rfl, hnode₂, if_neg hne, if_pos rfl]
  obtain ⟨t', hadd, hfree, hsize, hnode'⟩ := addChild?_eq hne hupper hlower
  refine ⟨lower, t', ?_, hfresh, ?_, ?_, fun s => ?_⟩
  · simp only [split?, hnode, htext, Text.cut?_append, put?_eq _ hlt, Option.bind_eq_bind,
      Option.bind_some]
    refine (congrArg (Option.bind · _) halloc).trans ?_
    exact (congrArg (Option.bind · _) hadopt).trans hadd
  · intro s hs
    rw [hfree, hfree₃] at hs
    exact htaken.free s hs
  · have hslots := htaken.slots
    rw [size_set, free_set] at hslots
    rw [hfree, hfree₃, hsize, hsize₃]
    exact hslots
  · rw [hnode', hnode₃, hnode₂]
    by_cases hs : s ∈ children.map Tree.slot
    · simp [hs, (hchild hs).1, (hchild hs).2]
    · by_cases hs' : s = slot
      · simp [hs']
      · by_cases hl : s = lower <;> simp [hs, hs', hl]

/-- A split puts a new node between a node and its children. -/
theorem Holds.split {t : Trie H} {C : Context H} {slot : Slot} {c : Content H}
    {children : List (Tree H)} (h : t.Holds (C.plug (.node slot c children)))
    {front back : List Char}
    (htext : c.text = front ++ back) (hkind : c.kind = .static) :
    ∃ lower t', t.split? slot (Text.utf8Length front) = some t' ∧ t'.Holds (C.plug (.node slot
      (c.upper front) [.node lower (c.lower back) children])) := by
  obtain ⟨lower, t', hsplit, hfresh, hfree, hslots, hnode⟩ := h.split?_eq htext
  rw [(C.slots_plug _).mem_iff, List.mem_append, not_or] at hfresh
  have hnodup := h.nodup_slots
  rw [Tree.slots_eq, List.nodup_cons] at hnodup
  have hbelow {s : Slot} (hs : s ∈ children.flatMap Tree.slots) : s ≠ slot ∧ s ≠ lower := by
    obtain ⟨m, hm, hs⟩ := List.mem_flatMap.mp hs
    have hin : s ∈ (Tree.node slot c children).slots := Tree.mem_slots_of_child hm hs
    exact ⟨h.ne_of_child hm hs, fun heq => hfresh.1 (heq ▸ hin)⟩
  have hkept {s : Slot} (hs : s ∉ (Tree.node slot c children).slots) (hl : s ≠ lower) :
      t'.node? s = t.node? s := by
    rw [hnode, if_neg, if_neg hl, if_neg]
    · intro hs'
      obtain ⟨m, hm, rfl⟩ := List.mem_map.mp hs'
      exact hs (Tree.mem_slots_of_child hm (Tree.slot_mem_slots m))
    · rintro rfl
      exact hs (Tree.slot_mem_slots _)
  refine ⟨lower, t', hsplit, h.exchange ?_ rfl (fun s hs => hkept (h.slots_disjoint _ hs) ?_)
    (stores_iff.mpr ⟨(hnode slot).trans (if_pos rfl), ?_⟩) ?_ fun s hs => ?_⟩
  · simp [hkind]
  · rintro rfl
    exact hfresh.2 hs
  · intro m hm
    obtain rfl := List.mem_singleton.mp hm
    refine stores_iff.mpr ⟨?_, stores_adopted (fun n => h.part.child) hnodup.2 fun s hs => ?_⟩
    · show t'.node? lower = _
      rw [hnode, if_neg, if_pos rfl]
      · rfl
      · rintro rfl
        exact hfresh.1 (Tree.slot_mem_slots _)
    · rw [hnode, if_neg (hbelow hs).1, if_neg (hbelow hs).2]
      rfl
  · simp only [List.perm_iff_count, Tree.slots_node, List.flatMap_cons, List.flatMap_nil,
      List.count_append, List.count_cons, List.count_nil] at hslots ⊢
    intro a
    have := hslots a
    omega
  · obtain ⟨hs, hl⟩ := hfree s hs
    rw [hkept (h.free_disjoint _ hs).1 hl]
    exact h.blank s hs

/-! ### Taking nodes out -/

/-- A node is taken off its parent, and its place given back. -/
theorem removeChild?_release?_eq {t : Trie H} {parent child : Slot} {n m : Node H}
    (hparent : t.node? parent = some n) (hchild : t.node? child = some m) :
    ∃ t', (t.removeChild? parent child).bind (·.release? child) = some t' ∧
      t'.free = child :: t.free ∧ t'.nodes.size = t.nodes.size ∧
      ∀ s, t'.node? s =
        if s = child then some .blank
        else if s = parent then some { n with children := n.children.filter (· ≠ child) }
        else t.node? s := by
  let t₁ := t.set parent { n with children := n.children.filter (· ≠ child) }
  have hlt : child < t₁.nodes.size := by
    rw [size_set]
    exact lt_of_node? hchild
  refine ⟨{ t₁.set child .blank with free := child :: t.free }, ?_, rfl, ?_, fun s => ?_⟩
  · rw [removeChild?, change?_eq hparent, Option.bind_some, release?, put?_eq _ hlt]
    rfl
  · exact (size_set ..).trans (size_set ..)
  · rw [← node?_set t _ (lt_of_node? hparent)]
    exact node?_set t₁ .blank hlt s

/-- A node without one of its children. -/
theorem filter_children {left right : List Slot} {child : Slot}
    (h : (left ++ child :: right).Nodup) :
    (left ++ child :: right).filter (· ≠ child) = left ++ right := by
  have hout : child ∉ left := fun hin =>
    (List.nodup_append.mp h).2.2 child hin child (List.mem_cons_self ..) rfl
  have herase := h.erase_eq_filter child
  rw [List.erase_append_right _ hout, List.erase_cons_head] at herase
  rw [herase]
  exact List.filter_congr fun s _ => by simp [bne, beq_eq_decide]

/-- A leaf goes, and its place is given back. -/
theorem Holds.dropLeaf {t : Trie H} {C : Context H} {slot leaf : Slot} {c d : Content H}
    {left right : List (Tree H)}
    (h : t.Holds ((C.under slot c left right).plug (.node leaf d []))) :
    ∃ t', ((t.removeChild? slot leaf).bind (·.release? leaf)) = some t' ∧
      t'.Holds (C.plug (.node slot c (left ++ right))) := by
  have hup : t.Holds (C.plug (.node slot c (left ++ .node leaf d [] :: right))) := h
  have hmap : (left ++ .node leaf d [] :: right).map Tree.slot =
      left.map Tree.slot ++ leaf :: right.map Tree.slot := List.map_append
  have hchildren : (left.map Tree.slot ++ leaf :: right.map Tree.slot).Nodup :=
    hmap ▸ hup.nodup_children
  have hslot : t.node? slot =
      some ⟨c, C.parent, left.map Tree.slot ++ leaf :: right.map Tree.slot⟩ := hmap ▸ hup.node?_eq
  have hleaf : t.node? leaf = some ⟨d, some slot, []⟩ := h.node?_eq
  have hperm : (Tree.node slot c (left ++ .node leaf d [] :: right)).slots.Perm
      (leaf :: (Tree.node slot c (left ++ right)).slots) := by
    simp only [List.perm_iff_count, Tree.slots_node, List.flatMap_append, List.flatMap_cons,
      List.flatMap_nil, List.count_append, List.count_cons, List.count_nil]
    intro a
    omega
  have hfresh : leaf ∉ (Tree.node slot c (left ++ right)).slots := by
    have hnodup := hup.nodup_slots
    rw [hperm.nodup_iff, List.nodup_cons] at hnodup
    exact hnodup.1
  have hne : slot ≠ leaf := fun heq => hfresh (heq ▸ Tree.slot_mem_slots _)
  obtain ⟨t', hremove, hfree, hsize, hnode⟩ := removeChild?_release?_eq hslot hleaf
  have hkept {s : Slot} (hl : s ≠ leaf) (hs : s ≠ slot) : t'.node? s = t.node? s := by
    rw [hnode, if_neg hl, if_neg hs]
  have hout {s : Slot} (hs : s ∉ (Tree.node slot c (left ++ .node leaf d [] :: right)).slots) :
      s ≠ leaf := fun heq => hs (heq ▸ hperm.mem_iff.mpr (List.mem_cons_self ..))
  refine ⟨t', hremove, hup.exchange rfl rfl (fun s hs => hkept (hout ?_) (hup.ne_of_around hs))
    (stores_iff.mpr ⟨?_, fun m hm => ?_⟩) ?_ fun s hs => ?_⟩
  · exact hup.slots_disjoint _ hs
  · show t'.node? slot = some ⟨c, C.parent, (left ++ right).map Tree.slot⟩
    rw [hnode, if_neg hne, if_pos rfl, filter_children hchildren, List.map_append]
  · have hold : m ∈ left ++ .node leaf d [] :: right := by
      rcases List.mem_append.mp hm with hm | hm
      · exact List.mem_append_left _ hm
      · exact List.mem_append_right _ (List.mem_cons_of_mem _ hm)
    refine (hup.part.child hold).frame fun s hs => hkept ?_ (hup.ne_of_child hold hs)
    rintro rfl
    exact hfresh (Tree.mem_slots_of_child hm hs)
  · rw [hsize, hfree]
    refine List.Perm.append_right _ ?_
    exact List.perm_middle.trans (hperm.symm.append_right t.free)
  · rw [hfree] at hs
    rcases List.mem_cons.mp hs with rfl | hs
    · exact (hnode s).trans (if_pos rfl)
    · rw [hkept (hout (hup.free_disjoint _ hs).1) (hup.ne_of_free hs)]
      exact h.blank s hs

/-! ### Merging -/

section merge
variable {t : Trie H} {C : Context H} {slot only : Slot} {c d : Content H}
  {children : List (Tree H)}

theorem Holds.slots_only (h : t.Holds (C.plug (.node slot c [.node only d children]))) :
    slot ≠ only ∧ ∀ s ∈ children.flatMap Tree.slots, s ≠ slot ∧ s ≠ only := by
  have hin : Tree.node only d children ∈ [Tree.node only d children] := List.mem_singleton_self _
  refine ⟨(h.ne_of_child hin (Tree.slot_mem_slots _)).symm, fun s hs => ?_⟩
  obtain ⟨m, hm, hs⟩ := List.mem_flatMap.mp hs
  have hbelow : s ∈ (Tree.node only d children).slots := Tree.mem_slots_of_child hm hs
  have honly : t.Holds ((C.under slot c [] []).plug (.node only d children)) := h
  exact ⟨h.ne_of_child hin hbelow, honly.ne_of_child hm hs⟩

/-- What a merge writes: the node with its child's text and route, a blank in place of the
child, and for the child's children another parent. -/
theorem Holds.merge?_eq (h : t.Holds (C.plug (.node slot c [.node only d children])))
    (hkind : c.kind = .static) (hroute : c.hasRoute = false) (hkind' : d.kind = .static) :
    ∃ t', t.merge? slot = some t' ∧ t'.free = only :: t.free ∧ t'.nodes.size = t.nodes.size ∧
      ∀ s, t'.node? s =
        if s = slot then some ⟨c.absorb d, C.parent, children.map Tree.slot⟩
        else if s = only then some .blank
        else if s ∈ children.map Tree.slot then
          (t.node? s).map fun n => { n with parent := some slot }
        else t.node? s := by
  have hslot : t.node? slot = some ⟨c, C.parent, [only]⟩ := h.node?_eq
  have hstored := h.part.child (List.mem_singleton_self (Tree.node only d children))
  have honly : t.node? only = some ⟨d, some slot, children.map Tree.slot⟩ := hstored.node?_eq
  obtain ⟨hne, hbelow⟩ := h.slots_only
  have hchild {s : Slot} (hs : s ∈ children.map Tree.slot) : s ≠ slot ∧ s ≠ only := by
    obtain ⟨m, hm, rfl⟩ := List.mem_map.mp hs
    exact hbelow _ (List.mem_flatMap_of_mem hm (Tree.slot_mem_slots m))
  have hnode₁ := node?_set t (.blank : Node H) (lt_of_node? honly)
  obtain ⟨t₂, hadopt, hfree₂, hsize₂, hnode₂⟩ :=
    adopt?_eq slot (children.map Tree.slot) (t := t.set only .blank) fun s hs => by
      rw [hnode₁, if_neg (hchild hs).2]
      obtain ⟨m, hm, rfl⟩ := List.mem_map.mp hs
      rw [(hstored.child hm).node?_eq]
      rfl
  have hslot₂ : t₂.node? slot = some ⟨c, C.parent, [only]⟩ := by
    rw [hnode₂, if_neg fun hs => (hchild hs).1 rfl, hnode₁, if_neg hne, hslot]
  refine ⟨{ t₂.set slot ⟨c.absorb d, C.parent, children.map Tree.slot⟩ with
    free := only :: t.free }, ?_, rfl, ?_, fun s => ?_⟩
  · simp only [merge?, hslot, honly, hkind, hroute, hkind', Option.bind_eq_bind, Option.bind_some,
      Bool.false_eq_true, not_false_eq_true, and_self, if_true, put?_eq _ (lt_of_node? honly)]
    refine (congrArg (Option.bind · _) hadopt).trans ?_
    refine (congrArg (Option.bind · _) (change?_eq hslot₂ _)).trans ?_
    show some { t₂.set slot _ with free := only :: t₂.free } = _
    rw [hfree₂]
    rfl
  · exact (size_set ..).trans (hsize₂.trans (size_set ..))
  · refine (node?_set t₂ _ (lt_of_node? hslot₂) s).trans ?_
    rw [hnode₂, hnode₁]
    by_cases hs : s ∈ children.map Tree.slot
    · simp [hs, (hchild hs).1, (hchild hs).2]
    · simp [hs]

/-- A plain static node swallows its only child if that is static. -/
theorem Holds.merge (h : t.Holds (C.plug (.node slot c [.node only d children])))
    (hkind : c.kind = .static) (hroute : c.hasRoute = false) (hkind' : d.kind = .static) :
    ∃ t', t.merge? slot = some t' ∧ t'.Holds (C.plug (.node slot (c.absorb d) children)) := by
  obtain ⟨t', hmerge, hfree, hsize, hnode⟩ := h.merge?_eq hkind hroute hkind'
  obtain ⟨hne, hbelow⟩ := h.slots_only
  have hslots : (Tree.node slot c [.node only d children]).slots =
      slot :: only :: children.flatMap Tree.slots := by
    simp
  have hnodup := h.nodup_slots
  rw [hslots, List.nodup_cons, List.nodup_cons] at hnodup
  have hkept {s : Slot} (hs : s ∉ (Tree.node slot c [.node only d children]).slots) :
      t'.node? s = t.node? s := by
    rw [hslots, List.mem_cons, List.mem_cons, not_or, not_or] at hs
    rw [hnode, if_neg hs.1, if_neg hs.2.1, if_neg]
    exact fun hin => hs.2.2 ((sublist_slots children).subset hin)
  refine ⟨t', hmerge, h.exchange rfl rfl (fun s hs => hkept (h.slots_disjoint _ hs))
    (stores_iff.mpr ⟨(hnode slot).trans (if_pos rfl), ?_⟩) ?_ fun s hs => ?_⟩
  · refine stores_adopted (fun n => (h.part.child (List.mem_singleton_self _)).child) hnodup.2.2
      fun s hs => ?_
    rw [hnode, if_neg (hbelow s hs).1, if_neg (hbelow s hs).2]
    rfl
  · rw [hsize, hfree, hslots, Tree.slots_eq]
    exact List.Perm.append_right _ (List.Perm.cons _ List.perm_middle)
  · rw [hfree] at hs
    rcases List.mem_cons.mp hs with rfl | hs
    · rw [hnode, if_neg hne.symm, if_pos rfl]
    · rw [hkept (h.free_disjoint _ hs).1]
      exact h.blank s hs

end merge

end Routing.Trie

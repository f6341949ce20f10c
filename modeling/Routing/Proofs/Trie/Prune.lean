import Routing.Proofs.Trie.Plant
import Routing.Trie.Prune

/-! Pruning.

A node that has lost its route is gone if nothing is below it, and so on upwards; the first
node above that stays may then be one with its only child (`Context.prune`). The stored nodes
follow (`Holds.prune`). The node that lost its route was all that kept the trie from being
tight, and the slack moves up with the loop until it is gone (`Slack.prune`). No route is
lost (`Context.prune_routes`). -/
namespace Routing.Trie
variable {H : Type}

namespace Tree

/-- A node that neither ends a route nor leads on. -/
def useless (n : Tree H) : Bool := !n.content.hasRoute && n.children.isEmpty

theorem useless_iff {n : Tree H} :
    n.useless = true ↔ n.content.hasRoute = false ∧ n.children = [] := by
  rw [useless, Bool.and_eq_true, Bool.not_eq_true', List.isEmpty_iff]

/-- The node with its only child swallowed, if the two can be one. -/
def merged : Tree H → Tree H
  | node slot c [node only d children] =>
    if c.hasRoute = false ∧ c.kind = .static ∧ d.kind = .static then
      node slot (c.absorb d) children
    else node slot c [node only d children]
  | n => n

theorem merged_of_hasRoute {slot : Slot} {c : Content H} {children : List (Tree H)}
    (h : c.hasRoute = true) : (node slot c children).merged = node slot c children := by
  match children with
  | [] => rfl
  | [.node only d grandchildren] =>
    rw [merged, if_neg]
    rw [h]
    exact fun hnot => Bool.noConfusion hnot.1
  | .node _ _ _ :: _ :: _ => rfl

end Tree

/-- The tree after the node in a context, which has lost its route, has been pruned. -/
def Context.prune : Context H → Tree H → Tree H
  | hole, n => if n.useless then bare else n.merged
  | under outer slot c left right, n =>
    if n.useless then outer.prune (.node slot c (left ++ right))
    else outer.plug (.node slot c (left ++ n.merged :: right))

theorem Context.prune_of_useful (C : Context H) {n : Tree H} (h : n.useless = false) :
    C.prune n = C.plug n.merged := by
  cases C <;> rw [prune, h] <;> rfl

/-! ### The stored nodes -/

theorem Holds.merged {t : Trie H} {C : Context H} {n : Tree H} (h : t.Holds (C.plug n)) :
    ∃ t', t.merge? n.slot = some t' ∧ t'.Holds (C.plug n.merged) := by
  obtain ⟨slot, c, children⟩ := n
  have hnode : t.node? slot = some ⟨c, C.parent, children.map Tree.slot⟩ := h.node?_eq
  match children, h, hnode with
  | [], h, hnode => exact ⟨t, by simp [merge?, hnode], h⟩
  | [.node only d grandchildren], h, hnode =>
    by_cases hone : c.hasRoute = false ∧ c.kind = .static ∧ d.kind = .static
    · obtain ⟨t', hmerge, hholds⟩ := h.merge hone.2.1 hone.1 hone.2.2
      refine ⟨t', hmerge, ?_⟩
      rw [Tree.merged, if_pos hone]
      exact hholds
    · refine ⟨t, ?_, ?_⟩
      · have honly : t.node? only = some ⟨d, some slot, grandchildren.map Tree.slot⟩ :=
          (h.part.child (List.mem_singleton_self _)).node?_eq
        simp only [merge?, Tree.slot_node, hnode, List.map_cons, List.map_nil, Option.bind_eq_bind,
          Option.bind_some, honly]
        split
        · next hself =>
          rw [if_neg]
          · rfl
          · exact fun hkind => hone ⟨Bool.eq_false_iff.mpr hself.2, hself.1, hkind⟩
        · rfl
      · rw [Tree.merged, if_neg hone]
        exact h
  | .node _ _ _ :: _ :: _, h, hnode => exact ⟨t, by simp [merge?, hnode], h⟩

/-- A node that is of use ends the loop. -/
theorem Holds.pruneFrom_useful {t : Trie H} {C : Context H} {n : Tree H} (h : t.Holds (C.plug n))
    (huseful : n.useless = false) (turns : Nat) :
    ∃ t', t.pruneFrom? (turns + 1) n.slot = some t' ∧ t'.Holds (C.prune n) := by
  obtain ⟨t', hmerge, hholds⟩ := h.merged
  rw [C.prune_of_useful huseful]
  obtain ⟨slot, c, children⟩ := n
  have hnode : t.node? slot = some ⟨c, C.parent, children.map Tree.slot⟩ := h.node?_eq
  rw [Tree.slot_node] at hmerge ⊢
  rw [pruneFrom?, hnode]
  cases hroute : c.hasRoute with
  | true =>
    refine ⟨t, if_pos hroute, ?_⟩
    rw [Tree.merged_of_hasRoute hroute]
    exact h
  | false =>
    simp only [Option.bind_eq_bind, Option.bind_some, hroute, Bool.false_eq_true, if_false]
    match children, huseful, hmerge, hholds, h with
    | [], huseful, _, _, _ =>
      rw [Tree.useless, Tree.content, hroute] at huseful
      cases huseful
    | [_], _, hmerge, hholds, _ => exact ⟨t', hmerge, hholds⟩
    | .node _ _ _ :: _ :: _, _, _, _, h => exact ⟨t, rfl, h⟩

theorem Holds.pruneFrom {turns : Nat} {t : Trie H} {C : Context H} {n : Tree H}
    (h : t.Holds (C.plug n)) (hturns : C.depth < turns) :
    ∃ t', t.pruneFrom? turns n.slot = some t' ∧ t'.Holds (C.prune n) := by
  induction C generalizing t n turns with
  | hole =>
    obtain ⟨turns, rfl⟩ := Nat.exists_eq_add_of_lt hturns
    cases huseless : n.useless with
    | false => exact h.pruneFrom_useful huseless _
    | true =>
      obtain ⟨slot, c, children⟩ := n
      obtain rfl : slot = root := h.rooted
      obtain ⟨hroute, rfl⟩ : c.hasRoute = false ∧ children = [] := Tree.useless_iff.mp huseless
      have hnode : t.node? root = some ⟨c, none, []⟩ := h.node?_eq (C := .hole)
      refine ⟨t.set root .blank, ?_, ?_⟩
      · rw [Tree.slot_node, pruneFrom?, hnode]
        simp only [Option.bind_eq_bind, Option.bind_some, hroute, Bool.false_eq_true, if_false]
        exact put?_eq _ (lt_of_node? hnode)
      · rw [Context.prune, if_pos huseless]
        exact Holds.setContent (C := .hole) h (.plain .static []) rfl
  | under outer slot c left right ih =>
    obtain ⟨turns, rfl⟩ := Nat.exists_eq_add_of_lt hturns
    cases huseless : n.useless with
    | false => exact h.pruneFrom_useful huseless _
    | true =>
      obtain ⟨leaf, d, children⟩ := n
      obtain ⟨hroute, rfl⟩ : d.hasRoute = false ∧ children = [] := Tree.useless_iff.mp huseless
      obtain ⟨t₁, hdrop, hholds⟩ := h.dropLeaf
      have hless : outer.depth < (outer.under slot c left right).depth + turns := by
        rw [Context.depth]
        omega
      obtain ⟨t', hprune, hholds'⟩ := ih hholds hless
      refine ⟨t', ?_, ?_⟩
      · have hnode : t.node? leaf = some ⟨d, some slot, []⟩ := h.node?_eq
        obtain ⟨t₀, hremove, hrelease⟩ := Option.bind_eq_some_iff.mp hdrop
        rw [Tree.slot_node, pruneFrom?, hnode]
        simp only [Option.bind_eq_bind, Option.bind_some, hroute, Bool.false_eq_true, if_false,
          hremove, hrelease]
        exact hprune
      · rw [Context.prune, if_pos huseless]
        exact hholds'

/-- The loop has turns enough for every tree. -/
theorem Holds.prune {t : Trie H} {C : Context H} {n : Tree H} (h : t.Holds (C.plug n)) :
    ∃ t', t.prune? n.slot = some t' ∧ t'.Holds (C.prune n) := by
  refine h.pruneFrom ?_
  rw [h.nodeCount_eq]
  exact C.depth_lt n

/-! ### The routes -/

theorem Tree.routesAt_merged (above : List Char) (n : Tree H) :
    n.merged.routesAt above = n.routesAt above := by
  obtain ⟨slot, c, children⟩ := n
  match children with
  | [] => rfl
  | [.node only d grandchildren] =>
    rw [merged]
    split
    · next hone =>
      have hnone : c.routeAt (above ++ c.text) = none := Content.routeAt_eq_none hone.1 _
      have htext : (c.absorb d).text = c.text ++ d.text := rfl
      simp only [routesAt_node, hnone, htext, Option.toList_none, List.nil_append,
        List.flatMap_cons, List.flatMap_nil, List.append_nil, List.append_assoc]
      rfl
    · rfl
  | .node _ _ _ :: _ :: _ => rfl

theorem Tree.routesAt_useless {n : Tree H} (h : n.useless = true) (above : List Char) :
    n.routesAt above = [] := by
  obtain ⟨hroute, hchildren⟩ := useless_iff.mp h
  rw [routesAt_eq, Content.routeAt_eq_none hroute, hchildren]
  rfl

/-- Pruning loses no route. -/
theorem Context.prune_routes (C : Context H) (n : Tree H) :
    (C.prune n).routes = (C.plug n).routes := by
  induction C generalizing n with
  | hole =>
    unfold prune
    split
    · next h => exact (Tree.routesAt_useless h []).symm
    · exact Tree.routesAt_merged [] n
  | under outer slot c left right ih =>
    unfold prune
    split
    · next h =>
      rw [ih, plug, routes_plug, routes_plug, Tree.routesAt_eq, Tree.routesAt_eq]
      simp only [Tree.content, Tree.children, List.flatMap_append, List.flatMap_cons,
        Tree.routesAt_useless h, List.nil_append]
    · rw [plug, routes_plug, routes_plug, Tree.routesAt_eq, Tree.routesAt_eq]
      simp only [Tree.content, Tree.children, List.flatMap_append, List.flatMap_cons,
        Tree.routesAt_merged]

/-! ### The nodes -/

section edits
variable {C : Context H} {slot only leaf : Slot} {c d : Content H} {children : List (Tree H)}

theorem sound_merge (h : ∀ e ∈ (C.plug (.node slot c [.node only d children])).all, e.Sound)
    (hkind : c.kind = .static) (hkind' : d.kind = .static) :
    ∀ e ∈ (C.plug (.node slot (c.absorb d) children)).all, e.Sound := by
  have htop := h _ Context.top_mem
  have honly := fun e he =>
    h e (Context.mem_of_part (Tree.mem_cells_of_child (List.mem_singleton_self _) he))
  have hself := honly _ Tree.top_mem
  refine Context.forall_exchange (n := .node slot c [.node only d children]) rfl h fun e he => ?_
  rcases Tree.mem_cells.mp he with rfl | ⟨m, hm, hem⟩
  · refine ⟨?_, htop.root, hself.labels, ?_⟩
    · have habsorb : (c.absorb d).Sound (C.above ++ c.text ++ d.text) :=
        htop.content.absorb hkind hself.content hkind'
      rw [List.append_assoc] at habsorb
      exact habsorb
    · show c.kind.Admits _
      rw [hkind]
      trivial
  · have hcells : ∀ e ∈ m.cells (C.above ++ c.text ++ d.text) (some only), e.Sound :=
      fun e he => honly e (Tree.mem_cells_of_child hm he)
    exact Tree.forall_cells (List.append_assoc ..).symm hcells Cell.Sound.below e hem

theorem sound_merged {n : Tree H} (h : ∀ e ∈ (C.plug n).all, e.Sound) :
    ∀ e ∈ (C.plug n.merged).all, e.Sound := by
  obtain ⟨slot, c, children⟩ := n
  match children, h with
  | [], h => exact h
  | [.node only d grandchildren], h =>
    rw [Tree.merged]
    split
    · next hone => exact sound_merge h hone.2.1 hone.2.2
    · exact h
  | .node _ _ _ :: _ :: _, h => exact h

end edits

/-- A node that swallows its only child is as tight as the child was. -/
theorem tight_absorb {above : List Char} {parent : Option Slot} {slot only : Slot} {c d : Content H}
    {children : List (Tree H)} (hkind' : d.kind = .static)
    (h : ∀ e ∈ (Tree.node only d children).cells (above ++ c.text) (some slot), e.Tight) :
    ∀ e ∈ (Tree.node slot (c.absorb d) children).cells above parent, e.Tight := by
  intro e he
  rcases Tree.mem_cells.mp he with rfl | ⟨m, hm, hem⟩
  · exact (h _ Tree.top_mem).imp_right fun ⟨hne, hkinds⟩ => ⟨hne, fun _ => hkinds hkind'⟩
  · have hcells : ∀ e ∈ m.cells (above ++ c.text ++ d.text) (some only), e.Tight :=
      fun e he => h e (Tree.mem_cells_of_child hm he)
    exact Tree.forall_cells (List.append_assoc ..).symm hcells Cell.Tight.below e hem

/-- Every node is sound, and tight but for the one in the context. -/
structure Slack (C : Context H) (n : Tree H) : Prop where
  sound : ∀ c ∈ (C.plug n).all, c.Sound
  before : ∀ c ∈ C.before n.kid, c.Tight
  beneath : ∀ c ∈ n.beneath C.above, c.Tight
  after : ∀ c ∈ C.after, c.Tight

/-- A node that has to stay is tight once it has swallowed what it can. -/
theorem Slack.merged {C : Context H} {n : Tree H} (h : Slack C n) (huseful : n.useless = false) :
    Formed (C.plug n.merged) := by
  suffices htop : n.merged.kid = n.kid ∧ ∀ c ∈ n.merged.cells C.above C.parent, c.Tight by
    refine .full (sound_merged h.sound) fun c hc => ?_
    rw [Context.cells_plug, List.mem_append, List.mem_append, htop.1] at hc
    rcases hc with (hc | hc) | hc
    · exact h.before c hc
    · exact htop.2 c hc
    · exact h.after c hc
  obtain ⟨slot, c, children⟩ := n
  rw [Tree.useless, Bool.and_eq_false_iff, Bool.not_eq_false'] at huseful
  have hself (hmerged : (Tree.node slot c children).merged = .node slot c children)
      (htight : c.hasRoute = true ∨
        children ≠ [] ∧ (c.kind = .static → children.map (·.content.kind) ≠ [.static])) :
      (Tree.node slot c children).merged.kid = (Tree.node slot c children).kid ∧
        ∀ e ∈ (Tree.node slot c children).merged.cells C.above C.parent, e.Tight := by
    rw [hmerged, Tree.cells_eq, List.forall_mem_cons]
    refine ⟨rfl, ?_, h.beneath⟩
    refine htight.imp_right fun ⟨hne, hone⟩ => ⟨mt List.map_eq_nil_iff.mp hne, ?_⟩
    rw [Tree.top_kids, List.map_map]
    exact hone
  match children, h, huseful, hself with
  | [], _, huseful, hself =>
    refine hself rfl (.inl (huseful.resolve_right ?_))
    exact fun hempty => (by cases hempty)
  | [.node only d grandchildren], h, _, hself =>
    by_cases hone : c.hasRoute = false ∧ c.kind = .static ∧ d.kind = .static
    · have honly : ∀ e ∈ (Tree.node only d grandchildren).cells (C.above ++ c.text) (some slot),
          e.Tight :=
        fun e he => h.beneath e (List.mem_flatMap_of_mem (List.mem_singleton_self _) he)
      rw [Tree.merged, if_pos hone]
      exact ⟨rfl, tight_absorb hone.2.2 honly⟩
    · refine hself (by rw [Tree.merged, if_neg hone]) ?_
      cases hroute : c.hasRoute with
      | true => exact .inl rfl
      | false =>
        refine .inr ⟨List.cons_ne_nil _ _, fun hkind hkinds => hone ⟨hroute, hkind, ?_⟩⟩
        exact (List.cons.inj hkinds).1
  | .node _ _ _ :: _ :: _, _, _, hself => exact hself rfl (.inr ⟨by simp, by simp⟩)

/-- Taking a node out makes the one above slack, and no other. -/
theorem Slack.drop {C : Context H} {slot : Slot} {c : Content H} {left right : List (Tree H)}
    {n : Tree H} (h : Slack (C.under slot c left right) n) :
    Slack C (.node slot c (left ++ right)) := by
  have hchild {m : Tree H} (hm : m ∈ left ++ right) : m ∈ left ++ n :: right :=
    (List.mem_append.mp hm).elim (List.mem_append_left _) fun hm =>
      List.mem_append_right _ (List.mem_cons_of_mem _ hm)
  have hup : ∀ e ∈ (C.plug (.node slot c (left ++ n :: right))).all, e.Sound := h.sound
  have htop := hup _ Context.top_mem
  refine ⟨?_, fun e he => h.before e (List.mem_append_left _ he), fun e he => ?_,
    fun e he => h.after e (List.mem_append_right _ he)⟩
  · refine Context.forall_exchange (n := .node slot c (left ++ n :: right)) rfl hup fun e he => ?_
    rcases Tree.mem_cells.mp he with rfl | ⟨m, hm, hem⟩
    · have hsub : ((left ++ right).map Tree.kid).Sublist ((left ++ n :: right).map Tree.kid) :=
        ((List.sublist_cons_self n right).append_left left).map _
      refine ⟨htop.content, htop.root, htop.labels.sublist (hsub.map _), ?_⟩
      have hkids : c.kind.Admits ((left ++ n :: right).map Tree.kid) := htop.kids
      show c.kind.Admits ((left ++ right).map Tree.kid)
      cases hkind : c.kind with
      | static => trivial
      | param =>
        rw [hkind] at hkids
        exact fun k hk => hkids k (hsub.subset hk)
      | wildcard =>
        rw [hkind] at hkids
        exact absurd hkids (by simp [Kind.Admits])
    · exact hup e (Context.mem_of_part (Tree.mem_cells_of_child (hchild hm) hem))
  · obtain ⟨m, hm, hem⟩ := List.mem_flatMap.mp he
    rcases List.mem_append.mp hm with hm | hm
    · exact h.before e (List.mem_append_right _ (List.mem_cons_of_mem _
        (List.mem_flatMap_of_mem hm hem)))
    · exact h.after e (List.mem_append_left _ (List.mem_flatMap_of_mem hm hem))

/-- Pruning takes the slack out. -/
theorem Slack.prune {C : Context H} {n : Tree H} (h : Slack C n) : Formed (C.prune n) := by
  induction C generalizing n with
  | hole =>
    cases huseless : n.useless with
    | true =>
      rw [Context.prune, huseless]
      exact .bare
    | false =>
      rw [Context.prune_of_useful _ huseless]
      exact h.merged huseless
  | under outer slot c left right ih =>
    cases huseless : n.useless with
    | true =>
      rw [Context.prune, huseless]
      exact ih h.drop
    | false =>
      rw [Context.prune_of_useful _ huseless]
      exact h.merged huseless

end Routing.Trie

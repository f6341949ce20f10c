import Routing.Proofs.Trie.Plant
import Routing.Proofs.Trie.Prune
import Routing.Router.Add
import Routing.Router.Remove

/-! The routers there can be.

A router begins without routes, and routes are added and removed (`Router.after`). The trie of
every router that comes about like this holds a tree of sound and tight nodes, or the bare one
(`after_valid`): additions and removals both see to it, whatever they are asked for. -/
namespace Routing
open Trie
variable {H : Type}

/-- A call that may change a router. -/
inductive Call (H : Type) where
  | add (name method path : String) (handler : H)
  | remove (name method path : String)

namespace Router

/-- The router after a call. -/
def call (r : Router H) : Call H → Router H
  | .add name method path handler => (r.add name method path handler).value.2
  | .remove name method path => (r.remove name method path).value.2

/-- The router that some calls make, one after another. -/
def after (notFound notAllowed : H) (calls : List (Call H)) : Router H :=
  calls.foldl call (new notFound notAllowed)

end Router

/-- The trie holds a tree that tries have. -/
def Trie.Valid (t : Trie H) : Prop := ∃ n, t.Holds n ∧ Formed n

theorem Trie.empty_valid : (Trie.empty : Trie H).Valid := ⟨bare, empty_holds, .bare⟩

/-! ### Additions -/

namespace Router

theorem names_of_parse {path : String} {pattern : Pattern} (h : Pattern.parse path = .ok pattern) :
    Names pattern.text pattern.params pattern.path :=
  ⟨(Pattern.parse_text h).2, (Pattern.reads_of_parse h).1, pattern, (Pattern.parse_text h).1, rfl⟩

/-- An addition fails, and leaves the router as it was, or it enters a pattern that was found
good. -/
theorem add_cases (r : Router H) (name method path : String) (handler : H) :
    (∃ e, (r.add name method path handler).value = (.error e, r)) ∨
      ∃ pattern, Pattern.parse path = .ok pattern ∧ r.registry.accept name pattern = .ok () ∧
        (r.add name method path handler).value =
          (.ok pattern.params.length, r.enter name method pattern handler) := by
  unfold add
  cases hparse : Pattern.parse path with
  | error e => exact .inl ⟨e, rfl⟩
  | ok pattern =>
    cases haccept : r.registry.accept name pattern with
    | error e => exact .inl ⟨e, by simp only [haccept]; rfl⟩
    | ok _ => exact .inr ⟨pattern, rfl, haccept, by simp only [haccept]; rfl⟩

/-- What a successful addition has gone through. -/
theorem add_eq_ok_iff {r left : Router H} {name method path : String} {handler : H} {count : Nat} :
    (r.add name method path handler).value = (.ok count, left) ↔
      ∃ pattern, Pattern.parse path = .ok pattern ∧ r.registry.accept name pattern = .ok () ∧
        count = pattern.params.length ∧ left = r.enter name method pattern handler := by
  constructor
  · intro h
    rcases r.add_cases name method path handler with ⟨e, herror⟩ | ⟨pattern, hparse, haccept, hadd⟩
    · cases herror.symm.trans h
    · cases hadd.symm.trans h
      exact ⟨pattern, hparse, haccept, rfl, rfl⟩
  · rintro ⟨pattern, hparse, haccept, rfl, rfl⟩
    simp only [add, hparse, haccept]
    rfl

theorem exists_add_iff {r : Router H} {name method path : String} {handler : H} :
    (∃ count, (r.add name method path handler).value.1 = .ok count) ↔
      ∃ pattern, Pattern.parse path = .ok pattern ∧ r.registry.accept name pattern = .ok () := by
  constructor
  · rintro ⟨count, hcount⟩
    obtain ⟨pattern, hparse, haccept, -⟩ := add_eq_ok_iff.mp (Prod.ext hcount rfl)
    exact ⟨pattern, hparse, haccept⟩
  · rintro ⟨pattern, hparse, haccept⟩
    exact ⟨_, congrArg Prod.fst (add_eq_ok_iff.mpr ⟨pattern, hparse, haccept, rfl, rfl⟩)⟩

theorem call_add {r : Router H} {name path : String} {pattern : Pattern}
    (hparse : Pattern.parse path = .ok pattern) (haccept : r.registry.accept name pattern = .ok ())
    (method : String) (handler : H) :
    r.call (.add name method path handler) = r.enter name method pattern handler :=
  congrArg Prod.snd (add_eq_ok_iff.mpr ⟨pattern, hparse, haccept, rfl, rfl⟩)

theorem enter_valid {r : Router H} (hr : r.trie.Valid) (name method : String) {path : String}
    {pattern : Pattern} (hparse : Pattern.parse path = .ok pattern) (handler : H) :
    (r.enter name method pattern handler).trie.Valid := by
  obtain ⟨n, hholds, hformed⟩ := hr
  obtain ⟨t', n', hplant, hholds', hsound, htight, -⟩ :=
    hholds.plant hformed (r := ⟨method, handler, name, pattern.text, pattern.params⟩)
      (Pattern.reads_of_parse hparse).2 (names_of_parse hparse)
  refine ⟨n', ?_, .full hsound htight⟩
  rw [enter, hplant]
  exact hholds'

end Router

/-! ### Removals -/

namespace Trie

/-- A node that carries a route is in use. -/
theorem Holds.exists_route {t : Trie H} {n : Tree H} (h : t.Holds n) {slot : Slot} {node : Node H}
    (hnode : t.node? slot = some node) (hroute : node.hasRoute = true) :
    ∃ (C : Context H) (c : Content H) (children : List (Tree H)),
      n = C.plug (.node slot c children) ∧ node = ⟨c, C.parent, children.map Tree.slot⟩ := by
  have hslot : slot ∈ n.slots ++ t.free :=
    h.slots.mem_iff.mpr (List.mem_range.mpr (lt_of_node? hnode))
  rcases List.mem_append.mp hslot with hslot | hslot
  · obtain ⟨cell, hcell, rfl⟩ := List.mem_map.mp hslot
    obtain ⟨C, ⟨slot, c, children⟩, heq, rfl⟩ := Context.exists_plug (C := .hole) hcell
    obtain rfl : n = _ := heq
    exact ⟨C, c, children, rfl, Option.some.inj (hnode.symm.trans h.node?_eq)⟩
  · rw [h.blank slot hslot] at hnode
    cases hnode
    cases hroute

theorem Formed.of_route {n : Tree H} (h : Formed n) {c : Cell H} (hc : c ∈ n.all)
    (hroute : c.content.hasRoute = true) :
    (∀ c ∈ n.all, c.Sound) ∧ ∀ c ∈ n.all, c.Tight := by
  cases h with
  | bare =>
    rcases Tree.mem_cells.mp hc with rfl | ⟨m, hm, -⟩
    · cases hroute
    · cases hm
  | full hsound htight => exact ⟨hsound, htight⟩

end Trie

namespace Router

theorem ifRoute?_eq_some {t : Trie H} {slot found : Slot}
    (h : ifRoute? t slot = some (some found)) :
    ∃ node, t.node? found = some node ∧ node.hasRoute = true := by
  unfold ifRoute? at h
  obtain ⟨node, hnode, h⟩ := Option.bind_eq_some_iff.mp h
  by_cases hroute : node.hasRoute = true
  · rw [if_pos hroute] at h
    obtain rfl : slot = found := Option.some.inj (Option.some.inj h)
    exact ⟨node, hnode, hroute⟩
  · rw [if_neg hroute] at h
    cases h

theorem join_mapM_ifRoute? {t : Trie H} {slot : Option Slot} {routes : Option (Option Slot)}
    {found : Slot} (h : slot.mapM (ifRoute? t) = some routes) (hfound : routes.join = some found) :
    ∃ node, t.node? found = some node ∧ node.hasRoute = true := by
  cases slot with
  | none =>
    cases h
    cases hfound
  | some slot =>
    obtain ⟨route, hroute, rfl⟩ := Option.map_eq_some_iff.mp h
    obtain rfl : route = some found := hfound
    exact ifRoute?_eq_some hroute

theorem serving?_eq_some {t : Trie H} {path : List Char} {found : Slot}
    (h : serving? t path = some (some found)) :
    ∃ node, t.node? found = some node ∧ node.hasRoute = true := by
  unfold serving? at h
  obtain ⟨⟨slot, _⟩, -, h⟩ := Option.bind_eq_some_iff.mp h
  cases slot with
  | none => cases h
  | some slot =>
    obtain ⟨route, hroute, h⟩ := Option.bind_eq_some_iff.mp h
    cases route with
    | some route =>
      obtain rfl : route = found := Option.some.inj (Option.some.inj h)
      exact ifRoute?_eq_some hroute
    | none =>
      obtain ⟨wildcard, -, h⟩ := Option.bind_eq_some_iff.mp h
      obtain ⟨routes, hroutes, h⟩ := Option.bind_eq_some_iff.mp h
      exact join_mapM_ifRoute? hroutes (Option.some.inj h)

/-- A removal means a node with a route. -/
theorem meant?_eq_some {r : Router H} {pattern : Pattern} {slot : Slot}
    (h : r.meant? pattern = some (some slot)) :
    ∃ node, r.trie.node? slot = some node ∧ node.hasRoute = true := by
  unfold meant? at h
  obtain ⟨found, -, h⟩ := Option.bind_eq_some_iff.mp h
  obtain ⟨routes, hroutes, h⟩ := Option.bind_eq_some_iff.mp h
  split at h
  · next own hown =>
    obtain rfl : own = slot := Option.some.inj (Option.some.inj h)
    exact join_mapM_ifRoute? hroutes hown
  · exact serving?_eq_some h

section remove
variable {r left : Router H} {C : Context H} {slot : Slot} {c : Content H}
  {children : List (Trie.Tree H)}

theorem withoutRoute?_valid (hholds : r.trie.Holds (C.plug (.node slot c children)))
    (hsound : ∀ e ∈ (C.plug (.node slot c children)).all, e.Sound)
    (htight : ∀ e ∈ (C.plug (.node slot c children)).all, e.Tight)
    (h : r.withoutRoute? slot = some left) : left.trie.Valid := by
  unfold withoutRoute? at h
  obtain ⟨path, -, h⟩ := Option.bind_eq_some_iff.mp h
  obtain ⟨t₁, hchange, h⟩ := Option.bind_eq_some_iff.mp h
  obtain ⟨t', hprune, h⟩ := Option.bind_eq_some_iff.mp h
  obtain rfl := Option.some.inj h
  obtain rfl := Option.some.inj ((change?_eq hholds.node?_eq _).symm.trans hchange)
  have hslack : Slack C (.node slot c.withoutRoute children) := by
    have htop := hsound _ Context.top_mem
    refine ⟨sound_setContent hsound htop.content.withoutRoute rfl rfl rfl, fun e he => ?_,
      fun e he => ?_, fun e he => ?_⟩
    · exact htight e (Context.mem_plug.mpr (.inl he))
    · exact htight e (Context.mem_plug.mpr (.inr (.inr (.inl he))))
    · exact htight e (Context.mem_plug.mpr (.inr (.inr (.inr he))))
  have hcleared := hholds.setContent c.withoutRoute rfl
  obtain ⟨t₂, hprune', hholds'⟩ := hcleared.prune
  obtain rfl := Option.some.inj (hprune'.symm.trans hprune)
  exact ⟨_, hholds', hslack.prune⟩

theorem withMethods?_valid (hholds : r.trie.Holds (C.plug (.node slot c children)))
    (hsound : ∀ e ∈ (C.plug (.node slot c children)).all, e.Sound)
    (htight : ∀ e ∈ (C.plug (.node slot c children)).all, e.Tight) (hroute : c.hasRoute = true)
    {methods : Methods H} (hordered : methods.Ordered) (hmethods : methods.isEmpty = false)
    (h : r.withMethods? slot methods = some left) : left.trie.Valid := by
  unfold withMethods? at h
  obtain ⟨t', hchange, h⟩ := Option.bind_eq_some_iff.mp h
  obtain rfl := Option.some.inj h
  obtain rfl := Option.some.inj ((change?_eq hholds.node?_eq _).symm.trans hchange)
  have htop := (hsound _ Context.top_mem).content
  refine ⟨_, hholds.setContent { c with methods } rfl, .full ?_ ?_⟩
  · refine sound_setContent hsound ⟨htop.ne_nil, htop.label, htop.fits, hordered, ?_, ?_⟩
      rfl rfl rfl
    · intro hnone
      rw [Content.hasRoute, hmethods] at hnone
      cases hnone
    · exact fun _ => htop.route hroute
  · refine Context.forall_exchange (n := .node slot c children) rfl htight fun e he => ?_
    rcases Tree.mem_cells.mp he with rfl | ⟨m, hm, hem⟩
    · refine .inl ?_
      show (!methods.isEmpty) = true
      rw [hmethods]
      rfl
    · exact htight e (Context.mem_of_part (Tree.mem_cells_of_child hm hem))

end remove

/-- What a removal at a node comes to. -/
inductive Removal (r : Router H) (slot : Slot) (pattern method : String) :
    Router H → Event → Prop
  | route {left : Router H} : method = "" → r.withoutRoute? slot = some left →
    Removal r slot pattern method left (.removed pattern method)
  | last {left : Router H} {node : Node H} {methods : Methods H} : method ≠ "" →
    r.trie.node? slot = some node → node.methods.erase? method = some methods →
    methods.isEmpty = true → r.withoutRoute? slot = some left →
    Removal r slot pattern method left (.removed pattern method)
  | one {left : Router H} {node : Node H} {methods : Methods H} : method ≠ "" →
    r.trie.node? slot = some node → node.methods.erase? method = some methods →
    methods.isEmpty = false → r.withMethods? slot methods = some left →
    Removal r slot pattern method left (.methodRemoved pattern method)
  | missing {node : Node H} : method ≠ "" → r.trie.node? slot = some node →
    node.methods.erase? method = none →
    Removal r slot pattern method r (.methodNotRegistered pattern method)

theorem removeFrom?_eq_some {r left : Router H} {slot : Slot} {pattern method : String}
    {event : Event} (h : r.removeFrom? slot pattern method = some (left, event)) :
    r.Removal slot pattern method left event := by
  unfold removeFrom? at h
  split at h
  · next hmethod =>
    obtain ⟨left', hleft, h⟩ := Option.bind_eq_some_iff.mp h
    cases h
    exact .route hmethod hleft
  · next hmethod =>
    obtain ⟨node, hnode, h⟩ := Option.bind_eq_some_iff.mp h
    split at h
    · next herase =>
      cases h
      exact .missing hmethod hnode herase
    · next methods herase =>
      split at h
      · next hempty =>
        obtain ⟨left', hleft, h⟩ := Option.bind_eq_some_iff.mp h
        cases h
        exact .last hmethod hnode herase hempty hleft
      · next hempty =>
        obtain ⟨left', hleft, h⟩ := Option.bind_eq_some_iff.mp h
        cases h
        exact .one hmethod hnode herase (Bool.eq_false_iff.mpr hempty) hleft

/-- The text by which a removal says which route it means: the path or, without one, the pattern
that the name is bound to. -/
def Targets (r : Router H) (name path text : String) : Prop :=
  path ≠ "" ∧ text = path ∨ path = "" ∧ r.registry.names.lookup name = some text

theorem target?_eq_some_iff {r : Router H} {name path text : String} :
    r.target? name path = some text ↔ r.Targets name path text := by
  rw [target?, Targets]
  split
  · next h => simp [h, routePath?, Registry.path?]
  · next h => simp [h, eq_comm]

theorem target?_eq_none_iff {r : Router H} {name path : String} :
    r.target? name path = none ↔ path = "" ∧ r.registry.names.lookup name = none := by
  rw [target?]
  split
  · next h => simp [h, routePath?, Registry.path?]
  · next h => simp [h]

theorem Targets.unique {r : Router H} {name path text text' : String}
    (h : r.Targets name path text) (h' : r.Targets name path text') : text = text' :=
  Option.some.inj ((target?_eq_some_iff.mpr h).symm.trans (target?_eq_some_iff.mpr h'))

/-- A removal changes nothing, or removes from the node that is meant. -/
theorem remove_eq (r : Router H) (name method path : String) :
    (r.remove name method path).value.2 = r ∨ ∃ pattern slot event,
      r.meant? pattern = some (some slot) ∧
      r.Removal slot pattern.text method (r.remove name method path).value.2 event := by
  unfold remove
  split
  · exact .inl rfl
  · next text _ =>
    split
    · exact .inl rfl
    · next pattern _ =>
      split
      · exact .inl rfl
      · next slot hslot =>
        split
        · exact .inl rfl
        · next left event hleft =>
          cases hmeant : r.meant? pattern with
          | none =>
            rw [hmeant] at hslot
            cases hslot
          | some found =>
            rw [hmeant] at hslot
            obtain rfl : found = some slot := hslot
            exact .inr ⟨pattern, slot, event, hmeant, removeFrom?_eq_some hleft⟩

theorem Removal.valid {r left : Router H} (hr : r.trie.Valid) {slot : Slot} {node : Node H}
    (hnode : r.trie.node? slot = some node) (hroute : node.hasRoute = true)
    {pattern method : String} {event : Event} (h : r.Removal slot pattern method left event) :
    left.trie.Valid := by
  obtain ⟨n, hholds, hformed⟩ := hr
  obtain ⟨C, c, children, rfl, rfl⟩ := hholds.exists_route hnode hroute
  obtain ⟨hsound, htight⟩ := hformed.of_route
    Context.top_mem hroute
  cases h with
  | route _ hleft => exact withoutRoute?_valid hholds hsound htight hleft
  | last _ _ _ _ hleft => exact withoutRoute?_valid hholds hsound htight hleft
  | one _ hsame herase hmethods hleft =>
    obtain rfl := Option.some.inj (hnode.symm.trans hsame)
    have htop := (hsound _ Context.top_mem).content
    exact withMethods?_valid hholds hsound htight hroute (htop.methods.erase herase) hmethods hleft
  | missing => exact ⟨_, hholds, hformed⟩

/-! ### All calls -/

theorem call_valid {r : Router H} (hr : r.trie.Valid) (c : Call H) : (r.call c).trie.Valid := by
  cases c with
  | add name method path handler =>
    rw [call]
    rcases r.add_cases name method path handler with ⟨e, herror⟩ | ⟨pattern, hparse, -, hadd⟩
    · rw [herror]
      exact hr
    · rw [hadd]
      exact enter_valid hr name method hparse handler
  | remove name method path =>
    rw [call]
    rcases r.remove_eq name method path with hsame | ⟨pattern, slot, event, hmeant, hremoval⟩
    · rw [hsame]
      exact hr
    · obtain ⟨node, hnode, hroute⟩ := meant?_eq_some hmeant
      exact hremoval.valid hr hnode hroute

theorem after_concat (notFound notAllowed : H) (calls : List (Call H)) (c : Call H) :
    after notFound notAllowed (calls ++ [c]) = (after notFound notAllowed calls).call c := by
  rw [after, List.foldl_append]
  rfl

/-- Whatever is added and removed, the trie stays in order. -/
theorem after_valid (notFound notAllowed : H) (calls : List (Call H)) :
    (after notFound notAllowed calls).trie.Valid := by
  suffices h : ∀ (r : Router H), r.trie.Valid → (calls.foldl call r).trie.Valid from
    h _ Trie.empty_valid
  induction calls with
  | nil => exact fun r hr => hr
  | cons c rest ih => exact fun r hr => ih _ (call_valid hr c)

end Router

end Routing

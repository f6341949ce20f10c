import Routing.Proofs.Router.Capacity
import Routing.Proofs.Trie.Known

/-! Adding where there is a route already.

A pattern at whose path there is a route finds its way through the nodes that are there. Nothing is
allocated, split or linked anew: one node gets the method, and the name if it has none
(`Router.Keeps.enter_known`). Said once more with the same words, an addition changes nothing at all
(`Router.add_again`). -/
namespace Routing
open Trie
variable {H : Type}

/-- A name that is given is not lost. -/
theorem Trie.Route.Entered.name_eq {old : Option (Route H)} {new : Route H} {name method : String}
    {pattern : Pattern} {handler : H} (h : Route.Entered old new name method pattern handler) :
    (if new.name = "" then name else new.name) = new.name := by
  split
  · next hunnamed =>
    cases old with
    | none => exact (h.fresh rfl).1.symm
    | some route =>
      have hname := (h.kept route rfl).2.2.2
      rw [hunnamed] at hname ⊢
      split at hname
      · exact hname.symm
      · next hnamed => exact (hnamed hname.symm).elim
  · rfl

namespace Router

/-- What is added at the path of a route goes to the node of the route, and the trie is otherwise
as it was. -/
theorem Keeps.enter_known {r : Router H} {routes : List (Route H)} (h : r.Keeps routes)
    (hcovers : r.Covers routes) {route : Route H} (hroute : route ∈ routes) {path : String}
    {pattern : Pattern} (hparse : Pattern.parse path = .ok pattern)
    (hpath : route.path = pattern.path) (name method : String) (handler : H) :
    ∃ slot node, r.trie.node? slot = some node ∧ r.trie.pathOf? slot = some pattern.path ∧
      node.routeAt pattern.path = some route ∧
      (∀ cut ∈ pattern.cuts, ∃ front back slot,
        Text.cut? pattern.path cut.offset = some (front, back) ∧
          r.trie.insert? cut.kind front none = some (slot, r.trie)) ∧
      r.enter name method pattern handler =
        { r with
          trie := r.trie.set slot
            { node with
              methods := node.methods.insert method handler
              name := if node.name = "" then name else node.name }
          registry := r.registry.record name pattern } := by
  have hlength := h.length_params hroute
  obtain ⟨n, hholds, hn, rfl⟩ := h.exists_tree
  obtain ⟨c, hc, hat⟩ := mem_routes.mp hroute
  obtain ⟨hhas, -⟩ := Content.routeAt_eq_some.mp hat
  obtain ⟨hsound, -⟩ := hn.of_route hc hhas
  have hsame : c.path = pattern.path := (Cell.path_of_route? hat).symm.trans hpath
  have hcarries : c.content.Carries pattern.path :=
    hsame ▸ ⟨(hsound c hc).content.plain, (hsound c hc).content.route⟩
  obtain ⟨hreads, hstaged⟩ := Pattern.reads_of_parse hparse
  obtain ⟨hcuts, hplant⟩ := hholds.plant?_known hsound hn hstaged hc hsame
  refine ⟨c.slot, c.node, hholds.stored c hc, ?_, ?_, hcuts, ?_⟩
  · obtain ⟨C, m, rfl, rfl⟩ := Context.exists_plug (C := .hole) hc
    rw [← hsame]
    exact hholds.pathOf?_eq
  · rw [← hsame]
    exact hat
  · have hmost : max r.maxParams pattern.params.length = r.maxParams := by
      refine Nat.max_eq_left (le_trans ?_ (hcovers route hroute))
      rw [hlength, hpath, hreads]
    rw [Router.enter, hplant, Option.getD_some,
      hcarries.attach_eq hhas (names_of_parse hparse) name method handler, hmost]
    rfl

end Router

/-- An addition at the path of a route leaves every node in its place, with its kind, its label, its
text, its parent and its children, and the free places too: only the node of the route changes, in
its methods and, if it had none, in its name. Any addition that succeeds can be repeated, and
leaves everything as it is then. -/
theorem Router.add_again {notFound notAllowed : H} {calls : List (Call H)}
    {name method path : String} {handler : H} {count : Nat} {left : Router H}
    (hadd : ((after notFound notAllowed calls).add name method path handler).value =
      (.ok count, left)) :
    (∀ pattern routes route, Pattern.parse path = .ok pattern →
      (after notFound notAllowed calls).trie.routes? = some routes → route ∈ routes →
      route.path = pattern.path →
      ∃ slot node, (after notFound notAllowed calls).trie.node? slot = some node ∧
        (after notFound notAllowed calls).trie.pathOf? slot = some pattern.path ∧
        node.routeAt pattern.path = some route ∧
        (∀ cut ∈ pattern.cuts, ∃ front back slot,
          Text.cut? pattern.path cut.offset = some (front, back) ∧
            (after notFound notAllowed calls).trie.insert? cut.kind front none =
              some (slot, (after notFound notAllowed calls).trie)) ∧
        left =
          { after notFound notAllowed calls with
            trie := (after notFound notAllowed calls).trie.set slot
              { node with
                methods := node.methods.insert method handler
                name := if node.name = "" then name else node.name }
            registry := (after notFound notAllowed calls).registry.record name pattern }) ∧
    (left.add name method path handler).value = (.ok count, left) := by
  obtain ⟨kept, hkeeps⟩ := after_keeps notFound notAllowed calls
  have hcovers := after_covers hkeeps
  generalize after notFound notAllowed calls = r at *
  obtain ⟨pattern, hparse, haccept, rfl, rfl⟩ := add_eq_ok_iff.mp hadd
  obtain ⟨front, back, old, new, -, hentered, hadded⟩ :=
    hkeeps.enter hparse haccept method handler
  have hcall := call_add hparse haccept method handler
  constructor
  · intro same routes route hsame htable hroute hpath
    obtain rfl := Except.ok.inj (hparse.symm.trans hsame)
    obtain rfl := hkeeps.table_eq htable
    exact hkeeps.enter_known hcovers hroute hparse hpath name method handler
  · refine add_eq_ok_iff.mpr ⟨pattern, hparse,
      Registry.accept_record hkeeps.agrees.toSound haccept, rfl, Eq.symm ?_⟩
    have hcovers' := hkeeps.call_covers hcovers (.add name method path handler) (hcall ▸ hadded)
    rw [hcall] at hcovers'
    have hnew : new ∈ front ++ [new] ++ back := by simp
    obtain ⟨slot, node, hnode, -, hat, -, hagain⟩ :=
      hadded.enter_known hcovers' hnew hparse hentered.path name method handler
    -- The node has the method and a name already.
    obtain ⟨-, hroute⟩ := Content.routeAt_eq_some.mp hat
    have hname : (if node.name = "" then name else node.name) = node.name := by
      have hname := hentered.name_eq
      rw [hroute] at hname
      exact hname
    have hmethods : node.methods.insert method handler = node.methods := by
      have hordered := (hadded.methods hnew).1
      have hown := (hentered.methods method).trans (if_pos rfl)
      rw [hroute] at hordered hown
      exact hordered.insert_own hown
    rw [hagain, hname, hmethods]
    have hset := set_self hnode
    rw [show (r.enter name method pattern handler).trie.set slot
      { node with methods := node.methods, name := node.name } = _ from hset]
    have hrecord := Registry.record_record r.registry name pattern
    rw [show (r.enter name method pattern handler).registry.record name pattern =
      (r.enter name method pattern handler).registry from hrecord]

/-- A route without a name that was split from another, once more with a name, another method and
another spelling. -/
theorem Router.add_again_named : ∃ (left : Router Nat) (slot : Slot) (node : Node Nat),
    ((after 404 405 [.add "" "GET" "/users/:id" 1, .add "" "GET" "/users/new" 2]).add "user" "PUT"
      "users/:uid" 3).value = (.ok 1, left) ∧
    (after 404 405 [.add "" "GET" "/users/:id" 1, .add "" "GET" "/users/new" 2]).trie.pathOf?
      slot = some "/users/:".toList ∧
    left.trie = (after 404 405 [.add "" "GET" "/users/:id" 1,
      .add "" "GET" "/users/new" 2]).trie.set slot
        { node with
          methods := node.methods.insert "PUT" 3
          name := if node.name = "" then "user" else node.name } ∧
    (left.add "user" "PUT" "users/:uid" 3).value = (.ok 1, left) := by
  let pattern : Pattern :=
    ⟨⟨"/users/:".toList, ["uid"], [⟨.static, 7⟩], .param⟩, "/users/:uid"⟩
  have hparse : Pattern.parse "users/:uid" = .ok pattern := by decide +kernel
  have htable : (after 404 405 [.add "" "GET" "/users/:id" 1,
      .add "" "GET" "/users/new" 2]).trie.routes? =
        some [⟨"/users/:".toList, "", "/users/:id", ["id"], ⟨[("GET", 1)], none⟩⟩,
          ⟨"/users/new".toList, "", "/users/new", [], ⟨[("GET", 2)], none⟩⟩] := by decide +kernel
  have haccept : (after 404 405 [.add "" "GET" "/users/:id" 1,
      .add "" "GET" "/users/new" 2]).registry.accept "user" pattern = .ok () := by decide +kernel
  have hadd : ((after 404 405 [.add "" "GET" "/users/:id" 1,
      .add "" "GET" "/users/new" 2]).add "user" "PUT" "users/:uid" 3).value = (.ok 1, _) :=
    add_eq_ok_iff.mpr ⟨pattern, hparse, haccept, rfl, rfl⟩
  obtain ⟨hknown, hsame⟩ := add_again hadd
  obtain ⟨slot, node, -, hpath, -, -, hrouter⟩ :=
    hknown pattern _ _ hparse htable (List.mem_cons_self ..) rfl
  exact ⟨_, slot, node, hadd, hpath, by rw [hrouter], hsame⟩

end Routing

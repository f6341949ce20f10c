import Routing.Proofs.Pattern.Pieces
import Routing.Proofs.Router.Printed
import Routing.Proofs.Router.Session
import Routing.Proofs.Trie.Changes
import Routing.Proofs.Url

/-! No operation goes astray.

Whatever was done with a router, and whatever it is asked for next, every operation slices texts on
boundaries only and uses the numbers of nodes in use only, in every turn of every loop, and ends
with a result (`Router.Safe`). What a loop comes to is said by its turns (`Trie.Visits`,
`Trie.Changes`); here the operations are put together from their loops. One operation may fail all
the same: a trie is printed only if it is shallow (`Trie.Shallow`), and not every trie is
(`Router.ran_safe_deep`). -/
namespace Routing
open Relation Text Trie
variable {H : Type}

/-! ### Additions -/

/-- A pattern is put in safely: its path is sliced on boundaries at its cuts, each stretch is put
in safely into what the stretches in front of it have made of the trie, and the pattern as a whole
comes to what its stretches come to. -/
structure Trie.PlantSafe (t : Trie H) (pattern : Pattern) : Prop where
  cuts : ∀ cut ∈ pattern.cuts, OnBoundary pattern.path cut.offset
  stretches : ∀ {front back : List Stop} {stop : Stop}, pattern.stops = front ++ stop :: back →
    ∃ t', t.scaffold? front = some t' ∧ t'.InsertSafe stop.path
  whole : ∀ r, t.plant? pattern r = (t.scaffold? pattern.scaffolds).bind fun t' =>
    (t'.insert? pattern.terminal pattern.path (some r)).map Prod.snd
  ends : ∀ r, ∃ t', t.plant? pattern r = some t' ∧ t'.Closed

theorem Trie.Holds.plantSafe {t : Trie H} {n : Tree H} (h : t.Holds n) (hn : Formed n)
    {pattern : Pattern} (hstaged : pattern.Staged) : t.PlantSafe pattern := by
  have hstretches {front back : List Stop} {stop : Stop}
      (hstops : pattern.stops = front ++ stop :: back) :
      ∃ t', t.scaffold? front = some t' ∧ t'.InsertSafe stop.path := by
    have hchain := hstaged.chain
    rw [hstops] at hchain
    obtain ⟨t', n', pre, hscaffold, hholds, hgrown, hlast, -⟩ :=
      h.scaffold hn.grown hchain.of_append
    refine ⟨t', hscaffold, ?_⟩
    cases hlast with
    | cons hadds _ => exact hholds.insertSafe hgrown hadds
  refine ⟨hstaged.onBoundary, hstretches, h.plant?_eq hn hstaged, fun r => ?_⟩
  have hstops : pattern.stops = pattern.scaffolds ++ ⟨pattern.terminal, pattern.path⟩ :: [] := rfl
  obtain ⟨t₁, hscaffold, hsafe⟩ := hstretches hstops
  obtain ⟨last, t', hinsert, hclosed, -⟩ := hsafe.ends pattern.terminal (some r)
  refine ⟨t', ?_, hclosed⟩
  rw [h.plant?_eq hn hstaged, hscaffold, Option.bind_some, hinsert]
  rfl

/-! ### Removals -/

namespace Router

/-- A route is taken out safely from its node: the way up to the root, the route's going and the
pruning behind it. -/
structure TakeSafe (r : Router H) (slot : Slot) : Prop where
  inUse : r.trie.InUse slot
  climbs : ∀ {slot' : Slot}, ReflTransGen r.trie.LineageTurn slot slot' → r.trie.InUse slot'
  path : ∃ path, r.trie.pathOf? slot = some path
  prunes : ∃ t, r.trie.change? slot (fun n => { n with toContent := n.toContent.withoutRoute }) =
    some t ∧ t.PruneSafe slot
  ends : ∀ pattern method, ∃ left, r.removeFrom? slot pattern method = some left

/-- A removal is safe: the way down by the pattern's path, the search for its text, and what
happens at the node that is meant. -/
structure RemoveSafe (r : Router H) (pattern : Pattern) : Prop where
  descends : ∀ {slot : Slot} {rest : List Char},
    ReflTransGen r.trie.AtTurn (root, pattern.path) (slot, rest) → r.trie.InUse slot
  searches : r.trie.SearchSafe pattern.text.toList (0 : Nat)
  takes : ∃ found, r.meant? pattern = some found ∧ ∀ slot ∈ found, r.TakeSafe slot

section remove
variable {r : Router H} {n : Trie.Tree H} (hholds : r.trie.Holds n) (hn : Formed n)
include hholds hn

theorem takeSafe {slot : Slot} {route : Route H} (hends : n.Ends slot route) : r.TakeSafe slot := by
  have hremoves (pattern method : String) :
      ∃ left, r.removeFrom? slot pattern method = some left := by
    obtain ⟨left, event, hleft, -⟩ := removeFrom?_takes hholds hn hends pattern method
    exact ⟨_, hleft⟩
  obtain ⟨C, c, children, rfl, -⟩ := exists_plug_of_ends hn hends
  have hinUse : r.trie.InUse slot := hholds.inUse
  exact {
    inUse := hinUse
    climbs := fun hturns => hholds.closed.lineageTurns hturns hinUse
    path := ⟨_, hholds.pathOf?_eq⟩
    prunes := ⟨_, change?_eq hholds.node?_eq _, (hholds.setContent c.withoutRoute rfl).pruneSafe⟩
    ends := hremoves }

theorem removeSafe (pattern : Pattern) : r.RemoveSafe pattern where
  descends := fun hturns => hholds.closed.atTurns hturns hholds.closed.root
  searches := hholds.searchSafe _ _
  takes := by
    obtain ⟨found, hfound, hends⟩ := meant?_eq hholds hn pattern
    refine ⟨found, hfound, fun slot hslot => ?_⟩
    generalize meant n.routes pattern = route at hends
    cases hends with
    | none => cases hslot
    | some hends =>
      cases hslot
      exact takeSafe hholds hn hends

end remove

/-! ### Every operation -/

/-- No operation on a router goes astray. Patterns are sliced at their placeholders, when they are
read and when they are filled in. Only an outline may be missing, where the trie is not shallow. -/
structure Safe (r : Router H) : Prop where
  closed : r.trie.Closed
  reads : ∀ text : String, Pattern.Sliceable (Pattern.normalize text).toList
  adds : ∀ {text : String} {pattern : Pattern}, Pattern.parse text = .ok pattern →
    r.trie.PlantSafe pattern
  removes : ∀ {text : String} {pattern : Pattern}, Pattern.parse text = .ok pattern →
    r.RemoveSafe pattern
  finds : ∀ (method path : String) (params : Params),
    r.trie.SearchSafe (if path = "" then ['/'] else path.toList) params.clear ∧
      ∃ found, r.find? method path params = some found
  urls : ∀ {name text : String}, r.routePath? name = some text →
    Pattern.Sliceable text.toList ∧
      ∀ draft values, ∃ written, Url.expand? draft text values = some written
  lists : (∀ {stack : List Slot}, ReflTransGen r.trie.WalkTurn [root] stack →
      ∀ slot ∈ stack, r.trie.InUse slot) ∧ ∃ listed, r.list? = some listed
  outlines : (∀ {stack : List (Slot × Nat)}, ReflTransGen r.trie.LinesTurn [(root, 0)] stack →
      ∀ entry ∈ stack, r.trie.InUse entry.1) ∧
    ((∃ text, r.outline? = some text) ↔ r.trie.Shallow)

theorem Keeps.safe {r : Router H} {routes : List (Route H)} (h : r.Keeps routes) : r.Safe := by
  obtain ⟨n, hholds, hn, -⟩ := h.exists_tree
  have hwalk {stack : List Slot} (hturns : ReflTransGen r.trie.WalkTurn [root] stack) :
      ∀ slot ∈ stack, r.trie.InUse slot :=
    hholds.closed.walkTurns hturns (List.forall_mem_singleton.mpr hholds.closed.root)
  exact {
    closed := hholds.closed
    reads := fun _ => Pattern.sliceable _
    adds := fun hparse => hholds.plantSafe hn (Pattern.reads_of_parse hparse).2
    removes := fun _ => removeSafe hholds hn _
    finds := fun method path params =>
      ⟨hholds.searchSafe _ _, _, find?_eq hholds hn method path params⟩
    urls := fun _ => ⟨Pattern.sliceable _, fun draft values => ⟨_, Url.expand?_eq draft _ values⟩⟩
    lists := ⟨hwalk, _, list?_eq hholds⟩
    outlines := by
      refine ⟨fun hturns entry hentry => ?_, hholds.outline?_isSome_iff hn⟩
      have hlift := hturns.lift (·.map Prod.fst) fun _ _ => LinesTurn.walk
      exact hwalk hlift entry.1 (List.mem_map_of_mem hentry) }

/-- Whatever was done with a router, no operation on it goes astray. -/
theorem ran_safe (notFound notAllowed : H) (steps : List (Step H)) :
    (ran notFound notAllowed steps).Safe := by
  obtain ⟨routes, hkeeps⟩ := (ran_inOrder notFound notAllowed steps).keeps
  exact hkeeps.safe

/-- An outline may fail behind an addition. -/
theorem steps_nameless (notFound notAllowed : H) (method : String) (handler : H) {count : Nat}
    (hcount : maxIndent + 2 < 4 * count) :
    ((new notFound notAllowed).steps
      [.add "" method (Pattern.nameless count) handler, .outline]).value.1 =
        [.added (.ok count), .outlined none] := by
  obtain ⟨hadded, -, -⟩ := after_nameless notFound notAllowed method handler hcount
  have hprinted := outline?_nameless notFound notAllowed method handler hcount
  rw [← hadded, ← hprinted]
  rfl

theorem ran_safe_deep :
    ((new 404 405).steps [.add "" "GET" (Pattern.nameless 16385) 1, .outline]).value.1 =
      [.added (.ok 16385), .outlined none] :=
  steps_nameless 404 405 "GET" 1 (by decide)

end Router

end Routing

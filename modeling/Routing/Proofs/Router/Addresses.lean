import Routing.Proofs.Router.Registered
import Routing.Proofs.Trie.Locate

/-! The path of a node as its address.

The way down goes by the characters of a path and the way up by the parents of a node, over links
that every split and merge has to keep. Each undoes the other, so no two nodes in use have the same
path (`Holds.addressed`). What the registry drops by the path of a node is then what was recorded
of this node and of no other (`Router.after_addressed`). -/
namespace Routing
open Trie
variable {H : Type}

namespace Trie

/-- Nodes in use and their paths lead to each other. -/
structure Addressed (t : Trie H) : Prop where
  /-- The way up always comes to an end. -/
  path : ∀ slot, t.Live slot → ∃ path, t.pathOf? slot = some path
  /-- So does the way down, with a node or without one. -/
  node : ∀ path, ∃ found, t.at? path = some found
  inverse : ∀ path slot, t.at? path = some (some slot) ↔
    t.Live slot ∧ t.pathOf? slot = some path
  distinct : ∀ slot other, t.Live slot → t.Live other → t.pathOf? slot = t.pathOf? other →
    slot = other

theorem Holds.live_cell {t : Trie H} {n : Tree H} (h : t.Holds n) {slot : Slot} :
    t.Live slot ↔ ∃ c ∈ n.all, c.slot = slot :=
  h.live_iff.trans List.mem_map

/-- The way down ends at a node exactly if the way up from it gives the path. -/
theorem Holds.at?_eq_some_iff {t : Trie H} {n : Tree H} (h : t.Holds n) (hn : Formed n)
    {path : List Char} {slot : Slot} :
    t.at? path = some (some slot) ↔ t.Live slot ∧ t.pathOf? slot = some path := by
  obtain ⟨found, hfound, hleads⟩ := h.at?_eq hn path
  rw [hfound, Option.some.injEq, hleads slot, h.live_cell]
  constructor
  · rintro ⟨c, hc, rfl, rfl⟩
    exact ⟨⟨c, hc, rfl⟩, h.pathOf?_cell hc⟩
  · rintro ⟨⟨c, hc, rfl⟩, hpath⟩
    exact ⟨c, hc, Option.some.inj ((h.pathOf?_cell hc).symm.trans hpath), rfl⟩

theorem Holds.addressed {t : Trie H} {n : Tree H} (h : t.Holds n) (hn : Formed n) :
    t.Addressed where
  path := by
    intro slot hlive
    obtain ⟨c, hc, rfl⟩ := h.live_cell.mp hlive
    exact ⟨_, h.pathOf?_cell hc⟩
  node := by
    intro path
    obtain ⟨found, hfound, -⟩ := h.at?_eq hn path
    exact ⟨found, hfound⟩
  inverse := fun path slot => h.at?_eq_some_iff hn
  distinct := by
    intro slot other hslot hother hsame
    obtain ⟨c, hc, rfl⟩ := h.live_cell.mp hslot
    have hpath := h.pathOf?_cell hc
    have hat := (h.at?_eq_some_iff hn).mpr ⟨hslot, hpath⟩
    rw [(h.at?_eq_some_iff hn).mpr ⟨hother, hsame ▸ hpath⟩] at hat
    exact (Option.some.inj (Option.some.inj hat)).symm

end Trie

namespace Router

/-- The node that a pattern is recorded for: the one at the path of its record. -/
def nodeOf? (r : Router H) (text : String) : Option Slot := do
  (← r.trie.at? (← r.registry.paths.lookup text).path)

/-- What is left of the registry where a node loses its route. -/
structure Forgets (r : Router H) (slot : Slot) (left : Registry) : Prop where
  patterns : ∀ text, left.paths.lookup text =
    if r.nodeOf? text = some slot then none else r.registry.paths.lookup text
  names : ∀ name, left.path? name =
    (r.registry.path? name).filter fun text => r.nodeOf? text ≠ some slot

section forgets
variable {r : Router H} {slot : Slot} {path : List Char}

theorem nodeOf?_eq_some_iff {text : String} : r.nodeOf? text = some slot ↔
    ∃ entry, r.registry.paths.lookup text = some entry ∧
      r.trie.at? entry.path = some (some slot) := by
  simp only [nodeOf?, Option.bind_eq_bind, Option.bind_eq_some_iff]
  simp

variable (hpath : ∀ other, r.trie.at? other = some (some slot) ↔ path = other)
include hpath

/-- A pattern is recorded for a node if its path is that of the node. -/
theorem nodeOf?_iff_path {text : String} : r.nodeOf? text = some slot ↔
    (r.registry.paths.lookup text).map Registry.Entry.path = some path := by
  rw [nodeOf?_eq_some_iff, Option.map_eq_some_iff]
  exact exists_congr fun entry => and_congr_right fun _ => (hpath _).trans eq_comm

theorem forgets_of_drops {left : Registry} (h : r.registry.Drops path left) :
    r.Forgets slot left where
  patterns := by
    intro text
    rw [h.patterns]
    simp only [nodeOf?_iff_path hpath]
    cases hentry : r.registry.paths.lookup text with
    | none => simp
    | some entry => simp [Option.filter_some, ite_not]
  names := by
    intro name
    rw [h.names, Registry.pathOf?]
    simp only [ne_eq, nodeOf?_iff_path hpath]
    cases r.registry.path? name with
    | none => simp
    | some text =>
      rw [Option.bind_some, Option.filter_some]
      by_cases hgone : (r.registry.paths.lookup text).map Registry.Entry.path = some path
      · rw [if_pos hgone, if_neg (by simpa using hgone)]
      · rw [if_neg hgone, if_pos (by simpa using hgone)]

end forgets

/-- What is registered belongs to a node in use. -/
theorem Keeps.exists_nodeOf? {r : Router H} {routes : List (Route H)} (h : r.Keeps routes)
    {text : String} {entry : Registry.Entry} (hentry : r.registry.paths.lookup text = some entry) :
    ∃ slot, r.trie.Live slot ∧ r.nodeOf? text = some slot := by
  obtain ⟨n, hholds, hn, rfl⟩ := h.exists_tree
  obtain ⟨route, hroute, hpath⟩ := h.agrees.live text entry hentry
  obtain ⟨c, hc, hat⟩ := mem_routes.mp hroute
  have hlive : r.trie.Live c.slot := hholds.live_cell.mpr ⟨c, hc, rfl⟩
  refine ⟨c.slot, hlive, nodeOf?_eq_some_iff.mpr ⟨entry, hentry, ?_⟩⟩
  rw [← hpath, Cell.path_of_route? hat]
  exact (hholds.at?_eq_some_iff hn).mpr ⟨hlive, hholds.pathOf?_cell hc⟩

end Router

/-- In every router there can be the nodes in use and their paths lead to each other. Every pattern
is recorded for one of these nodes, and when a node loses its route the registry drops what is
recorded for it and nothing else. -/
theorem Router.after_addressed (notFound notAllowed : H) (calls : List (Call H)) :
    (after notFound notAllowed calls).trie.Addressed ∧
    (∀ text entry, (after notFound notAllowed calls).registry.paths.lookup text = some entry →
      ∃ slot, (after notFound notAllowed calls).trie.Live slot ∧
        (after notFound notAllowed calls).nodeOf? text = some slot) ∧
    ∀ slot, (after notFound notAllowed calls).trie.Live slot →
      ∃ left, (after notFound notAllowed calls).withoutRoute? slot = some left ∧
        (after notFound notAllowed calls).Forgets slot left.registry := by
  obtain ⟨routes, hkeeps⟩ := after_keeps notFound notAllowed calls
  generalize after notFound notAllowed calls = r at hkeeps ⊢
  obtain ⟨n, hholds, hn, -⟩ := hkeeps.exists_tree
  refine ⟨hholds.addressed hn, fun text entry => hkeeps.exists_nodeOf?, fun slot hlive => ?_⟩
  obtain ⟨C, ⟨_, c, children⟩, rfl, rfl⟩ := Context.exists_plug_of_slot (hholds.live_iff.mp hlive)
  obtain ⟨trie, hleft, -⟩ := withoutRoute?_eq hholds
  refine ⟨_, hleft, forgets_of_drops (fun other => ?_)
    (Registry.dropPath_drops hkeeps.agrees.toSound _)⟩
  rw [hholds.at?_eq_some_iff hn, and_iff_right hlive, hholds.pathOf?_eq, Option.some.injEq]
  rfl

end Routing

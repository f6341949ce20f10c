import Mathlib.Data.List.SplitBy
import Routing.Proofs.Router.Canonical
import Routing.Proofs.Router.Deep
import Routing.Proofs.Trie.Preorder

/-! The outline and the listing.

A trie is printed with an entry for each node, parents before children and each as far in as there
are nodes above it (`Holds.printed?_order`, `Holds.outline?_order`). The entries with a route show
what a listing does: the lines of a pattern stand together there (`Keeps.grouped_listed`), and in
the same order as the entries (`Router.after_printed`). An indentation has a limit, though, so a
trie is printed only if it is `Trie.Shallow`, and not every trie is
(`Router.after_printed_deep`). -/
namespace Routing
open Trie
variable {H : Type}

/-- A method as it is printed, that for any as `*`. -/
def starred (method : String) : String := if method = "" then "*" else method

/-! ### What is printed of a node -/

/-- An entry of the outline. -/
structure Printed where
  indent : Nat
  text : List Char
  kind : Kind
  /-- The pattern and the methods of the route that ends at the node. -/
  route : Option (String × List String)
  deriving Repr, DecidableEq

namespace Printed

/-- The entry of a node with this content. -/
def ofContent (depth : Nat) (c : Content H) : Printed :=
  ⟨2 * depth, c.text, c.kind,
    if c.hasRoute then some (c.pattern, c.methods.names.map starred) else none⟩

def write (p : Printed) : String :=
  let node := String.ofList (List.replicate p.indent ' ') ++
    (String.ofList p.text ++ " (" ++ p.kind.label ++ ")")
  match p.route with
  | none => node ++ "\n"
  | some (pattern, methods) =>
    node ++ (" " ++ pattern ++ " [" ++ ", ".intercalate methods ++ "]") ++ "\n"

theorem line?_eq (depth : Nat) (c : Content H) : line? depth c =
    if (ofContent depth c).indent ≤ maxIndent then some (ofContent depth c).write else none := by
  refine if_congr .rfl (congrArg some ?_) rfl
  rw [lineText, write, ofContent]
  cases c.hasRoute with
  | false => rfl
  | true =>
    simp only [if_true, String.append_assoc]
    rfl

/-- What an entry shows of a route is that of the route that ends at the node. -/
theorem route_ofContent (depth : Nat) (c : Cell H) : (ofContent depth c.content).route =
    c.route?.map fun route => (route.pattern, route.methods.names.map starred) := by
  rw [Cell.route?, Content.routeAt, ofContent]
  cases c.content.hasRoute <;> rfl

end Printed

namespace Trie

/-- What is printed of a node at this depth. -/
def printed? (t : Trie H) (slot : Slot) (depth : Nat) : Option Printed := do
  return .ofContent depth (← t.node? slot).toContent

namespace Tree

/-- What is printed of the nodes in order. -/
def printed (n : Tree H) : List Printed :=
  (n.ranked 0 [] none).map fun (depth, c) => .ofContent depth c.content

theorem filterMap_printed (n : Tree H) : n.printed.filterMap Printed.route =
    n.routes.map fun route => (route.pattern, route.methods.names.map starred) := by
  rw [printed, List.filterMap_map, routes, all, ← map_snd_ranked 0, List.filterMap_map,
    List.map_filterMap]
  exact List.filterMap_congr fun entry _ => Printed.route_ofContent entry.1 entry.2

end Tree

theorem Holds.printed?_order {t : Trie H} {n : Tree H} (h : t.Holds n) :
    n.order.mapM (Function.uncurry t.printed?) = some n.printed := by
  rw [Tree.order, List.mapM_map]
  refine mapM_eq_some fun entry hentry => ?_
  have hcell : entry.2 ∈ n.all := by
    rw [Tree.all, ← Tree.map_snd_ranked 0]
    exact List.mem_map_of_mem hentry
  show t.printed? entry.2.slot entry.1 = _
  rw [printed?, h.stored _ hcell]
  rfl

/-- A list is mapped if every entry of it passes. -/
theorem mapM_guard {α β : Type} (p : α → Prop) [DecidablePred p] (f : α → β) (l : List α) :
    (l.mapM fun a => if p a then some (f a) else none) =
      if ∀ a ∈ l, p a then some (l.map f) else none := by
  induction l with
  | nil => rfl
  | cons a rest ih =>
    rw [List.mapM_cons, ih]
    by_cases hall : ∀ b ∈ a :: rest, p b
    · obtain ⟨ha, hrest⟩ := List.forall_mem_cons.mp hall
      rw [if_pos ha, if_pos hrest, if_pos hall]
      rfl
    · rw [if_neg hall]
      by_cases ha : p a
      · rw [if_pos ha, if_neg fun hrest => hall (List.forall_mem_cons.mpr ⟨ha, hrest⟩)]
        rfl
      · rw [if_neg ha]
        rfl

/-- The outline is made of the entries, if all of them can be indented. -/
theorem Holds.outline?_order {t : Trie H} {n : Tree H} (h : t.Holds n)
    (hempty : t.isEmpty = false) :
    t.outline? = if ∀ entry ∈ n.printed, entry.indent ≤ maxIndent
      then some (String.join (n.printed.map Printed.write)) else none := by
  have hlines : linesOf? (n.levels 0) = n.printed.mapM fun entry =>
      if entry.indent ≤ maxIndent then some entry.write else none := by
    rw [← Tree.map_content_ranked 0 [] none, linesOf?, Tree.printed, List.mapM_map, List.mapM_map]
    exact congrArg (List.mapM · _) (funext fun entry => Printed.line?_eq entry.1 entry.2.content)
  rw [h.outline?_eq hempty, hlines, mapM_guard, apply_ite (Option.map String.join)]
  rfl

/-- A trie is printed if it is shallow, and only then. -/
theorem Holds.outline?_isSome_iff {t : Trie H} {n : Tree H} (h : t.Holds n) (hn : Formed n) :
    (∃ text, t.outline? = some text) ↔ t.Shallow := by
  have horder := h.preordered
  have hdepths : t.Shallow ↔ ∀ entry ∈ n.printed, entry.indent ≤ maxIndent := by
    rw [Tree.printed, List.forall_mem_map]
    constructor
    · intro hshallow entry hentry
      have hmem : (entry.2.slot, entry.1) ∈ n.order := List.mem_map_of_mem hentry
      obtain ⟨nodes, hnodes, hlength⟩ := horder.depth _ _ hmem
      have hle := hshallow _ _ ((horder.live _).mp (List.mem_map_of_mem hmem)) hnodes
      show 2 * entry.1 ≤ maxIndent
      omega
    · intro hindents slot nodes hlive hnodes
      obtain ⟨⟨slot', depth⟩, hmem, rfl⟩ := List.mem_map.mp ((horder.live slot).mpr hlive)
      obtain ⟨entry, hentry, heq⟩ := List.mem_map.mp hmem
      obtain ⟨rfl, rfl⟩ := Prod.mk.inj heq
      obtain ⟨nodes', hnodes', hlength⟩ := horder.depth _ _ hmem
      obtain rfl := Option.some.inj (hnodes.symm.trans hnodes')
      have hle : 2 * entry.1 ≤ maxIndent := hindents entry hentry
      omega
  rw [hdepths]
  cases hempty : t.isEmpty with
  | false =>
    rw [h.outline?_order hempty]
    split
    · next hall => exact iff_of_true ⟨_, rfl⟩ hall
    · next hall => exact iff_of_false (by simp) hall
  | true =>
    rw [h.isEmpty_eq hn, List.isEmpty_iff] at hempty
    obtain rfl := hn.eq_bare hempty
    refine iff_of_true ⟨"", if_pos (by rw [h.isEmpty_eq hn]; rfl)⟩ fun entry hentry => ?_
    obtain rfl := List.mem_singleton.mp hentry
    exact Nat.zero_le _

end Trie

/-! ### What is listed of a route -/

/-- The listing with the lines of one pattern drawn together: the pattern with its methods. -/
def Listed.grouped (lines : List Listed) : List (String × List String) :=
  (lines.splitBy fun line next => line.pattern == next.pattern).filterMap fun group =>
    group.head?.map fun first => (first.pattern, group.map fun line => starred line.method)

namespace Router
variable {r : Router H} {routes : List (Route H)} (h : r.Keeps routes)
include h

theorem Keeps.listing_eq_nil_iff : routes.flatMap Route.listed = [] ↔ routes = [] := by
  rw [List.flatMap_eq_nil_iff, List.eq_nil_iff_forall_not_mem]
  exact forall₂_congr fun route hroute => iff_of_false (h.listed_ne_nil hroute) id

theorem Keeps.nodup_patterns : (routes.map Route.pattern).Nodup :=
  h.nodup_paths.of_map.map_on fun _ ha _ hb => h.eq_of_pattern ha hb

/-- Lines of one route have one pattern, and lines of two routes never do. -/
theorem Keeps.splitBy_listed : (routes.flatMap Route.listed).splitBy
    (fun line next => line.pattern == next.pattern) = routes.map Route.listed := by
  rw [List.flatMap_def]
  -- A group is not empty, has one pattern, and ends with another than the next begins with.
  refine List.splitBy_flatten ?_ ?_ ?_
  · intro hnil
    obtain ⟨route, hroute, heq⟩ := List.mem_map.mp hnil
    exact h.listed_ne_nil hroute heq
  · intro group hgroup
    obtain ⟨route, -, rfl⟩ := List.mem_map.mp hgroup
    refine (List.pairwise_of_forall_mem_list fun line hline next hnext => ?_).isChain
    rw [Route.pattern_of_listed hline, Route.pattern_of_listed hnext, beq_self_eq_true]
  · refine List.Pairwise.isChain (List.pairwise_map.mpr ?_)
    refine (List.pairwise_map.mp h.nodup_patterns).imp_of_mem fun {a b} ha hb hne => ?_
    refine ⟨h.listed_ne_nil ha, h.listed_ne_nil hb, ?_⟩
    rw [Route.pattern_of_listed (List.getLast_mem _), Route.pattern_of_listed (List.head_mem _)]
    exact beq_false_of_ne hne

theorem Keeps.grouped_listed : Listed.grouped (routes.flatMap Route.listed) =
    routes.map fun route => (route.pattern, route.methods.names.map starred) := by
  rw [Listed.grouped, h.splitBy_listed, List.filterMap_map]
  refine List.filterMap_eq_map_iff_forall_eq_some.mpr fun route hroute => ?_
  obtain ⟨first, rest, hlisted⟩ := List.exists_cons_of_ne_nil (h.listed_ne_nil hroute)
  have hfirst := Route.pattern_of_listed (hlisted ▸ List.mem_cons_self ..)
  have hmethods : route.listed.map (fun line => starred line.method) =
      route.methods.names.map starred := by
    rw [Route.listed, List.map_map]
    rfl
  rw [Function.comp_apply, hmethods, hlisted, List.head?_cons, Option.map_some, hfirst]

end Router

/-- An addition may make a trie that is not printed. -/
theorem Router.outline?_nameless (notFound notAllowed : H) (method : String) (handler : H)
    {count : Nat} (hcount : maxIndent + 2 < 4 * count) :
    (after notFound notAllowed
      [.add "" method (Pattern.nameless count) handler]).outline? = none := by
  obtain ⟨-, -, hdeep⟩ := after_nameless notFound notAllowed method handler hcount
  obtain ⟨routes, hkeeps⟩ := after_keeps notFound notAllowed
    [.add "" method (Pattern.nameless count) handler]
  obtain ⟨n, hholds, hn, -⟩ := hkeeps.exists_tree
  exact Option.eq_none_iff_forall_ne_some.mpr fun text htext =>
    hdeep ((hholds.outline?_isSome_iff hn).mp ⟨text, htext⟩)

/-- The nodes of every router there can be are walked through and printed in the order of the
recursion, parents before children, and an entry is indented by two for each node above. The
entries with a route, read in order, are the lines of the listing drawn together by pattern. With
no routes there are no lines in the listing, and nothing is printed; nor is anything printed where
an entry would have to be indented beyond the limit. -/
theorem Router.after_printed (notFound notAllowed : H) (calls : List (Call H)) :
    ∃ order entries listed, (after notFound notAllowed calls).trie.Preordered order ∧
      order.mapM (Function.uncurry (after notFound notAllowed calls).trie.printed?) =
        some entries ∧
      (after notFound notAllowed calls).list? = some listed ∧
      entries.filterMap Printed.route = Listed.grouped listed ∧
      (after notFound notAllowed calls).outline? =
        (if (after notFound notAllowed calls).isEmpty then some ""
        else if ∀ entry ∈ entries, entry.indent ≤ maxIndent then
          some (String.join (entries.map Printed.write))
        else none) ∧
      ((after notFound notAllowed calls).isEmpty = true ↔ listed = []) := by
  obtain ⟨routes, hkeeps⟩ := after_keeps notFound notAllowed calls
  generalize after notFound notAllowed calls = r at hkeeps ⊢
  obtain ⟨n, hholds, -, rfl⟩ := hkeeps.exists_tree
  refine ⟨n.order, n.printed, n.routes.flatMap Route.listed, hholds.preordered,
    hholds.printed?_order, list?_eq hholds, ?_, ?_, ?_⟩
  · rw [n.filterMap_printed, hkeeps.grouped_listed]
  · cases hempty : r.isEmpty with
    | false => exact hholds.outline?_order hempty
    | true => exact if_pos hempty
  · rw [hkeeps.isEmpty_iff, hkeeps.listing_eq_nil_iff]

/-- A router that has a route, and is not printed. -/
theorem Router.after_printed_deep :
    (after 404 405 [.add "" "GET" (Pattern.nameless 16385) 1]).isEmpty = false ∧
      (after 404 405 [.add "" "GET" (Pattern.nameless 16385) 1]).outline? = none :=
  ⟨(after_nameless 404 405 "GET" 1 (by decide)).2.1, outline?_nameless 404 405 "GET" 1 (by decide)⟩

example : (Router.after 404 405 [.add "" "PUT" "/a/:id" 1, .add "" "GET" "/b" 2,
    .add "" "" "/a/:uid" 3]).outline? =
    some "/ (static)\n  a/ (static)\n    : (param) /a/:id [PUT, *]\n  b (static) /b [GET]\n" := by
  decide +kernel

end Routing

import Mathlib.Data.List.Chain
import Routing.Proofs.Router.Registered
import Routing.Proofs.Trie.Visits
import Routing.Trie.Walk

/-! How deep a trie may be.

An outline can show a node only so far below the root (`Trie.Shallow`). A trie has no such limit: of
a pattern that is nothing but parameters, every character of the path has a node of its own
(`Context.length_above_le`), and so there are routers whose trie is too deep
(`Router.after_nameless`). -/
namespace Routing
open Text
variable {H : Type}

/-- A pattern of this many parameters that have no names. -/
def Pattern.nameless (count : Nat) : String :=
  String.ofList (List.replicate count ['/', ':']).flatten

namespace Text

/-- No two characters stand together without a `:`. -/
def Spread (path : List Char) : Prop := path.IsChain fun c next => c = ':' ∨ next = ':'

theorem spread_nameless (count : Nat) : Spread (List.replicate count ['/', ':']).flatten := by
  induction count with
  | zero => exact .nil
  | succ count ih =>
    refine List.isChain_cons_cons.mpr ⟨.inr rfl, ?_⟩
    cases count with
    | zero => exact .singleton ':'
    | succ count => exact List.isChain_cons_cons.mpr ⟨.inl rfl, ih⟩

/-- A node's text is one character where the path is spread. -/
theorem Spread.length_le {kind : Kind} {text : List Char} (h : Spread text)
    (hfits : kind.Fits text) : text.length ≤ 1 := by
  cases kind with
  | static =>
    match text with
    | [] => exact Nat.zero_le 1
    | [_] => exact Nat.le_refl 1
    | c :: next :: rest =>
      have hliteral : Literal (c :: next :: rest) := hfits
      rcases (List.isChain_cons_cons.mp h).1 with rfl | rfl
      · exact (hliteral.1 (List.mem_cons_self ..)).elim
      · exact (hliteral.1 (List.mem_cons_of_mem _ (List.mem_cons_self ..))).elim
  | param => rw [show text = [':'] from hfits, List.length_singleton]
  | wildcard => rw [show text = ['*'] from hfits, List.length_singleton]

end Text

namespace Shape

theorem literal?_nameless (count offset : Nat) :
    ∃ shape, literal? offset (List.replicate count ['/', ':']).flatten = some shape ∧
      shape.path = (List.replicate count ['/', ':']).flatten ∧ shape.params.length = count := by
  induction count generalizing offset with
  | zero => exact ⟨_, rfl, rfl, rfl⟩
  | succ count ih =>
    rw [show (List.replicate (count + 1) ['/', ':']).flatten =
      '/' :: ':' :: (List.replicate count ['/', ':']).flatten from rfl,
      literal?.eq_4 _ _ _ (by decide) (by decide), literal?]
    cases count with
    | zero => exact ⟨_, rfl, rfl, rfl⟩
    | succ count =>
      obtain ⟨shape, hshape, hpath, hparams⟩ := ih (offset + 2)
      rw [show (List.replicate (count + 1) ['/', ':']).flatten =
        '/' :: ':' :: (List.replicate count ['/', ':']).flatten from rfl] at hshape hpath ⊢
      rw [literal?.eq_4 _ _ _ (by decide) (by decide)] at hshape
      obtain ⟨inner, hinner, rfl⟩ := Option.map_eq_some_iff.mp hshape
      rw [param?, show literal? (offset + '/'.utf8Size + 2) _ = some inner from hinner]
      refine ⟨_, rfl, ?_, ?_⟩
      · exact congrArg ('/' :: ':' :: ·) hpath
      · exact congrArg (· + 1) hparams

end Shape

theorem Pattern.parse_nameless {count : Nat} (hcount : count ≠ 0) :
    ∃ pattern, parse (nameless count) = .ok pattern ∧
      pattern.path = (List.replicate count ['/', ':']).flatten ∧ pattern.params.length = count := by
  have htext : normalize (nameless count) = nameless count := by
    obtain ⟨count, rfl⟩ := Nat.exists_eq_succ_of_ne_zero hcount
    refine if_pos ?_
    rw [nameless, String.toList_ofList]
    rfl
  obtain ⟨shape, hshape, hpath, hparams⟩ := Shape.literal?_nameless count 0
  rw [parse, htext, nameless, String.toList_ofList, hshape]
  exact ⟨_, rfl, hpath, hparams⟩

namespace Trie

/-- No node has more nodes above it than an indentation may show. -/
def Shallow (t : Trie H) : Prop :=
  ∀ slot nodes, t.Live slot → t.lineage? t.nodeCount slot = some nodes →
    2 * nodes.length ≤ maxIndent + 2

/-- Where the path is spread, there are as many nodes above as there are characters. -/
theorem Context.length_above_le {C : Context H} {n : Tree H} {rest : List Char}
    (hsound : ∀ c ∈ (C.plug n).all, c.Sound) (hpath : Spread (C.above ++ rest)) :
    C.above.length ≤ C.depth := by
  induction C generalizing n rest with
  | hole => exact Nat.zero_le 0
  | under outer slot c left right ih =>
    have hpath : Spread (outer.above ++ c.text ++ rest) := hpath
    have houter : outer.above.length ≤ outer.depth := by
      rw [List.append_assoc] at hpath
      exact ih hsound hpath
    have hself : c.kind.Fits c.text := (hsound _ (Context.top_mem (C := outer))).content.fits
    have htext : Spread c.text := List.IsChain.infix hpath ⟨outer.above, rest, rfl⟩
    have hone := htext.length_le hself
    show (outer.above ++ c.text).length ≤ outer.depth + 1
    rw [List.length_append]
    omega

/-- A trie with a route at a long path that is spread is not shallow. -/
theorem Holds.not_shallow {t : Trie H} {n : Tree H} (h : t.Holds n) (hn : Formed n)
    {route : Route H} (hroute : route ∈ n.routes) (hspread : Spread route.path)
    (hlong : maxIndent + 2 < 2 * route.path.length) : ¬ t.Shallow := by
  intro hshallow
  obtain ⟨c, hc, hat⟩ := mem_routes.mp hroute
  obtain ⟨hsound, -⟩ := hn.of_route hc (Content.routeAt_eq_some.mp hat).1
  rw [Cell.path_of_route? hat] at hspread hlong
  have hlive : t.Live c.slot := h.live_iff.mpr (List.mem_map_of_mem hc)
  obtain ⟨C, m, rfl, rfl⟩ := Context.exists_plug (C := .hole) hc
  obtain ⟨nodes, hnodes, hlength, -⟩ := h.lineage?_eq h.depth_lt
  have hdeep := hshallow _ nodes hlive hnodes
  have habove := Context.length_above_le hsound hspread
  have hown : Spread m.content.text :=
    List.IsChain.infix hspread ⟨C.above, [], List.append_nil _⟩
  have hlast := hown.length_le (hsound _ Context.top_mem).content.fits
  have hpath : (m.top C.above C.parent).path.length =
    C.above.length + m.content.text.length := List.length_append
  omega

end Trie

/-- An addition may make a trie that is not shallow. -/
theorem Router.after_nameless (notFound notAllowed : H) (method : String) (handler : H)
    {count : Nat} (hcount : Trie.maxIndent + 2 < 4 * count) :
    ((new notFound notAllowed).add "" method (Pattern.nameless count) handler).value.1 = .ok count ∧
      (after notFound notAllowed
        [.add "" method (Pattern.nameless count) handler]).isEmpty = false ∧
      ¬ (after notFound notAllowed
        [.add "" method (Pattern.nameless count) handler]).trie.Shallow := by
  have hcount' : count ≠ 0 := by omega
  obtain ⟨pattern, hparse, hpath, hparams⟩ := Pattern.parse_nameless hcount'
  have haccept : (new notFound notAllowed).registry.accept "" pattern = .ok () := if_pos rfl
  have hadd : ((new notFound notAllowed).add "" method (Pattern.nameless count) handler).value =
      (.ok count, _) :=
    add_eq_ok_iff.mpr ⟨pattern, hparse, haccept, hparams.symm, rfl⟩
  obtain ⟨front, back, old, route, -, hentered, hkeeps⟩ :=
    (new_keeps notFound notAllowed).enter hparse haccept method handler
  have hafter : after notFound notAllowed [.add "" method (Pattern.nameless count) handler] =
      (new notFound notAllowed).call (.add "" method (Pattern.nameless count) handler) :=
    after_concat notFound notAllowed [] _
  rw [← call_add hparse haccept, ← hafter] at hkeeps
  have hmem : route ∈ front ++ [route] ++ back := by simp
  have hlength : route.path.length = 2 * count := by
    rw [hentered.path, hpath, List.length_flatten]
    simp [Nat.mul_comm]
  have hspread : Spread route.path := by
    rw [hentered.path, hpath]
    exact spread_nameless count
  refine ⟨congrArg Prod.fst hadd, ?_, ?_⟩
  · exact Bool.eq_false_iff.mpr fun hempty => List.ne_nil_of_mem hmem (hkeeps.isEmpty_iff.mp hempty)
  · obtain ⟨n, hholds, hn, hroutes⟩ := hkeeps.exists_tree
    rw [← hroutes] at hmem
    exact hholds.not_shallow hn hmem hspread (by omega)

end Routing

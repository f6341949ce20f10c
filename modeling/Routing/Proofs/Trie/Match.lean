import Routing.Proofs.Trie.Routes
import Routing.Text.Shared

/-! Matching without a trie.

A table of routes is looked up by reading it: every route's path is held against the path asked
for (`Text.captures?`), and of those that match the first in order wins (`best`). One path is in
front of another if it has the stricter character where they part (`Text.precedes`).

A tree is walked from above, so a part of it sees only the ends of its routes' paths and of the
path asked for. `Route.behind?` is the match of the ends, and `Wins` says which route of a part
comes first. -/
namespace Routing

namespace Text

/-- What a route's path captures of a path, if it matches. A `:` takes the text up to the next
`/`, which must not be empty, a `*` at the end takes what is left, and any other character
matches itself. -/
def captures? : List Char → List Char → Option (List (List Char))
  | [], path => if path = [] then some [] else none
  | c :: pattern, path =>
    if c = ':' then
      if path.takeWhile (· ≠ '/') = [] then none
      else (captures? pattern (path.dropWhile (· ≠ '/'))).map (path.takeWhile (· ≠ '/') :: ·)
    else if c = '*' ∧ pattern = [] then some [path]
    else if path.head? = some c then captures? pattern path.tail
    else none

/-- The place of a character among those that may stand at one place of a path. -/
def rank (c : Char) : Nat := if c = ':' then 1 else if c = '*' then 2 else 0

/-- A path comes before another if its character is of lower rank where they part, or if the
other goes on behind it. -/
def precedes : List Char → List Char → Bool
  | [], right => !right.isEmpty
  | _ :: _, [] => false
  | a :: left, b :: right => if a = b then precedes left right else decide (rank a < rank b)

theorem precedes_asymm {left right : List Char} (h : precedes left right = true) :
    precedes right left = false := by
  induction left generalizing right with
  | nil =>
    cases right with
    | nil => cases h
    | cons b right => rfl
  | cons a left ih =>
    cases right with
    | nil => cases h
    | cons b right =>
      rw [precedes] at h ⊢
      by_cases hab : a = b
      · rw [if_pos hab] at h
        rw [if_pos hab.symm]
        exact ih h
      · rw [if_neg hab, decide_eq_true_eq] at h
        rw [if_neg fun heq => hab heq.symm, decide_eq_false_iff_not]
        omega

theorem precedes_append (front left right : List Char) :
    precedes (front ++ left) (front ++ right) = precedes left right := by
  induction front with
  | nil => rfl
  | cons c front ih => rw [List.cons_append, List.cons_append, precedes, if_pos rfl, ih]

theorem precedes_longer (front : List Char) (c : Char) (back : List Char) :
    precedes front (front ++ c :: back) = true := by
  have h := precedes_append front [] (c :: back)
  rw [List.append_nil] at h
  exact h

theorem precedes_of_rank_lt (front left right : List Char) {a b : Char} (h : rank a < rank b) :
    precedes (front ++ a :: left) (front ++ b :: right) = true := by
  have hne : a ≠ b := by
    rintro rfl
    exact Nat.lt_irrefl _ h
  rw [precedes_append, precedes, if_neg hne]
  exact decide_eq_true h

/-! ### What the parts of a path capture -/

theorem captures?_param (pattern path : List Char) : captures? (':' :: pattern) path =
    if path.takeWhile (· ≠ '/') = [] then none
    else (captures? pattern (path.dropWhile (· ≠ '/'))).map (path.takeWhile (· ≠ '/') :: ·) := by
  rw [captures?, if_pos rfl]

theorem captures?_wildcard (path : List Char) : captures? ['*'] path = some [path] := by
  rw [captures?, if_neg (by decide), if_pos ⟨rfl, rfl⟩]

theorem captures?_cons {c : Char} (h : Literal [c]) (pattern path : List Char) :
    captures? (c :: pattern) path =
      if path.head? = some c then captures? pattern path.tail else none := by
  obtain ⟨hcolon, hstar⟩ := literal_singleton.mp h
  rw [captures?, if_neg hcolon, if_neg fun h => hstar h.1]

/-- Literal text has to be what the path begins with. -/
theorem captures?_literal {text : List Char} (h : Literal text) (pattern path : List Char) :
    captures? (text ++ pattern) path = (after? text path).bind (captures? pattern) := by
  induction text generalizing path with
  | nil => rfl
  | cons c text ih =>
    obtain ⟨hc, htext⟩ := literal_append.mp (show Literal ([c] ++ text) from h)
    rw [List.cons_append, captures?_cons hc]
    cases path with
    | nil => rfl
    | cons x path =>
      rw [after?, List.head?_cons, List.tail_cons]
      by_cases hx : c = x
      · rw [if_pos hx, hx, if_pos rfl, ih htext]
      · rw [if_neg hx, if_neg fun heq => hx (Option.some.inj heq).symm, Option.bind_none]

theorem after?_append (front back : List Char) : after? front (front ++ back) = some back := by
  induction front with
  | nil => rfl
  | cons c front ih => rw [List.cons_append, after?, if_pos rfl, ih]

/-! ### What matches literal text -/

theorem rank_eq_zero_iff {c : Char} : rank c = 0 ↔ Literal [c] := by
  rw [rank, literal_singleton]
  split
  · next h => simp [h]
  · next hcolon =>
    split
    · next hstar => simp [hstar]
    · next hstar => simp [hcolon, hstar]

theorem captures?_self {text : List Char} (h : Literal text) : captures? text text = some [] := by
  have hmatch := captures?_literal h [] text
  have hafter := after?_append text []
  rw [List.append_nil] at hmatch hafter
  rw [hmatch, hafter]
  rfl

/-- What matches literal text is that text, or comes behind it. -/
theorem eq_or_precedes {text pattern : List Char} {texts : List (List Char)} (h : Literal text)
    (hmatch : captures? pattern text = some texts) :
    (pattern = text ∧ texts = []) ∨ precedes text pattern = true := by
  induction text generalizing pattern with
  | nil =>
    cases pattern with
    | nil =>
      cases hmatch
      exact .inl ⟨rfl, rfl⟩
    | cons p pattern => exact .inr rfl
  | cons c text ih =>
    obtain ⟨hc, htext⟩ := literal_append.mp (show Literal ([c] ++ text) from h)
    cases pattern with
    | nil => cases hmatch
    | cons p pattern =>
      by_cases hp : p = c
      · subst hp
        rw [captures?_cons hc, List.head?_cons, if_pos rfl, List.tail_cons] at hmatch
        rw [precedes, if_pos rfl]
        rcases ih htext hmatch with ⟨rfl, hnone⟩ | hbefore
        · exact .inl ⟨rfl, hnone⟩
        · exact .inr hbefore
      · have hmark : ¬ Literal [p] := by
          intro hliteral
          rw [captures?_cons hliteral, List.head?_cons,
            if_neg fun heq => hp (Option.some.inj heq).symm] at hmatch
          cases hmatch
        have hrank := mt rank_eq_zero_iff.mp hmark
        rw [precedes, if_neg (Ne.symm hp), rank_eq_zero_iff.mpr hc]
        exact .inr (decide_eq_true (Nat.pos_of_ne_zero hrank))

end Text

namespace Trie
open Text
variable {H : Type}

/-! ### The first of the routes that match -/

/-- The routes that a path matches, with what they capture. -/
def matching (routes : List (Route H)) (path : List Char) : List (Route H × List (List Char)) :=
  routes.filterMap fun route => (captures? route.path path).map fun texts => (route, texts)

/-- The one whose path comes before those of the others. -/
def best : List (Route H × List (List Char)) → Option (Route H × List (List Char))
  | [] => none
  | found :: rest =>
    match best rest with
    | some other => some (if precedes other.1.path found.1.path then other else found)
    | none => some found

/-- What a route captures behind a path that it begins with. -/
def Route.behind? (route : Route H) (above path : List Char) : Option (List (List Char)) :=
  (after? above route.path).bind fun pattern => captures? pattern path

/-- A route matches, and comes before all others that do. -/
structure Wins (routes : List (Route H)) (above path : List Char) (route : Route H)
    (texts : List (List Char)) : Prop where
  mem : route ∈ routes
  captured : route.behind? above path = some texts
  first : ∀ other ∈ routes, other.behind? above path ≠ none →
    other = route ∨ precedes route.path other.path = true

theorem mem_of_best {found : List (Route H × List (List Char))}
    {first : Route H × List (List Char)} (h : best found = some first) : first ∈ found := by
  induction found generalizing first with
  | nil => cases h
  | cons f rest ih =>
    unfold best at h
    cases hbest : best rest with
    | none =>
      rw [hbest] at h
      obtain rfl := Option.some.inj h
      exact List.mem_cons_self ..
    | some other =>
      rw [hbest] at h
      obtain rfl := Option.some.inj h
      split
      · exact List.mem_cons_of_mem _ (ih hbest)
      · exact List.mem_cons_self ..

/-- There is one route that comes before all others at most. -/
theorem best_eq_some {found : List (Route H × List (List Char))}
    {first : Route H × List (List Char)} (hmem : first ∈ found)
    (hfirst : ∀ other ∈ found, other = first ∨ precedes first.1.path other.1.path = true) :
    best found = some first := by
  induction found with
  | nil => cases hmem
  | cons f rest ih =>
    unfold best
    rcases hfirst f (List.mem_cons_self ..) with rfl | hbefore
    · cases hbest : best rest with
      | none => rfl
      | some other =>
        rcases hfirst other (List.mem_cons_of_mem _ (mem_of_best hbest)) with rfl | hother
        · simp only [ite_self]
        · simp only [precedes_asymm hother, Bool.false_eq_true, if_false]
    · have hrest : first ∈ rest := by
        rcases List.mem_cons.mp hmem with rfl | hrest
        · have hself := precedes_asymm hbefore
          rw [hbefore] at hself
          cases hself
        · exact hrest
      rw [ih hrest fun other hother => hfirst other (List.mem_cons_of_mem _ hother)]
      simp only [hbefore, if_true]

theorem mem_matching {routes : List (Route H)} {path : List Char} {route : Route H}
    {texts : List (List Char)} : (route, texts) ∈ matching routes path ↔
      route ∈ routes ∧ captures? route.path path = some texts := by
  simp only [matching, List.mem_filterMap, Option.map_eq_some_iff, Prod.mk.injEq]
  constructor
  · rintro ⟨route, hmem, texts, htexts, rfl, rfl⟩
    exact ⟨hmem, htexts⟩
  · rintro ⟨hmem, htexts⟩
    exact ⟨route, hmem, texts, htexts, rfl, rfl⟩

theorem matching_eq_nil {routes : List (Route H)} {path : List Char}
    (h : ∀ route ∈ routes, route.behind? [] path = none) : matching routes path = [] := by
  rw [matching, List.filterMap_eq_nil_iff]
  intro route hroute
  rw [show captures? route.path path = none from h route hroute]
  rfl

theorem Wins.best_eq {routes : List (Route H)} {path : List Char} {route : Route H}
    {texts : List (List Char)} (h : Wins routes [] path route texts) :
    best (matching routes path) = some (route, texts) := by
  refine best_eq_some (mem_matching.mpr ⟨h.mem, h.captured⟩) fun (other, texts') hother => ?_
  obtain ⟨hmem, htexts⟩ := mem_matching.mp hother
  have hmatch : other.behind? [] path = some texts' := htexts
  rcases h.first other hmem (by rw [hmatch]; exact Option.some_ne_none _) with rfl | hbefore
  · exact .inl (congrArg (Prod.mk other) (Option.some.inj (hmatch.symm.trans h.captured)))
  · exact .inr hbefore

/-- A route whose path is literal text comes before all others that match the text. -/
theorem best_of_path {routes : List (Route H)} (h : (routes.map Route.path).Nodup)
    {route : Route H} (hroute : route ∈ routes) (hliteral : Literal route.path) :
    best (matching routes route.path) = some (route, []) := by
  refine best_eq_some (mem_matching.mpr ⟨hroute, captures?_self hliteral⟩) ?_
  intro (other, texts) hother
  obtain ⟨hmem, hmatch⟩ := mem_matching.mp hother
  rcases eq_or_precedes hliteral hmatch with ⟨hpath, rfl⟩ | hbefore
  · rw [List.inj_on_of_nodup_map h hmem hroute hpath]
    exact .inl rfl
  · exact .inr hbefore

end Trie

end Routing

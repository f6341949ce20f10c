import Routing.Proofs.Trie.Growing
import Routing.Proofs.Trie.Match
import Routing.Proofs.Trie.Seek

/-! The recursion finds the first of the routes that match.

`Tree.seek` tries one child after another and stops at the first that leads somewhere. That is
the first in order of all the routes below the node, because the routes below a static child
come before those below a parameter, and these before a wildcard (`Part.precedes`). How the
paths are cut into nodes does not matter: a static text is passed as its characters would be one
by one (`Part.settles_enter`).

`Settles` relates what the recursion finds to what reading all routes gives. It is kept under
more routes that do not match (`widen`), under a step down the path (`shift`), and under putting
later routes behind (`or`). -/
namespace Routing.Trie
open Text
variable {H : Type}

/-- The route that a node stands for where a path ends at it, with what it captures besides: the
node's own, or else that of the wildcard below, which takes nothing. -/
inductive Answers (m : Tree H) (path : List Char) : Route H → List (List Char) → Prop
  | own {route : Route H} : m.content.routeAt path = some route → Answers m path route []
  | wildcard {x : Tree H} {route : Route H} : m.content.hasRoute = false →
    m.child? (·.kind == .wildcard) = some x →
    x.content.routeAt (path ++ x.content.text) = some route → Answers m path route [[]]

/-- A node found stands for the first of the routes that match; if none is found none match. -/
def Settles (whole : Tree H) (routes : List (Route H)) (above path : List Char) :
    Option (Tree H × List (List Char)) → Prop
  | none => ∀ route ∈ routes, route.behind? above path = none
  | some (m, texts) => ∃ (D : Context H) (route : Route H) (more : List (List Char)),
    whole = D.plug m ∧ Answers m (D.above ++ m.content.text) route more ∧
      Wins routes above path route (texts ++ more)

section settles
variable {whole : Tree H} {routes routes' : List (Route H)} {above above' path path' : List Char}
  {found found' : Option (Tree H × List (List Char))}

theorem Settles.widen (h : Settles whole routes above path found)
    (hsub : ∀ route ∈ routes, route ∈ routes')
    (hother : ∀ route ∈ routes', route ∈ routes ∨ route.behind? above path = none) :
    Settles whole routes' above path found := by
  cases found with
  | none => exact fun route hroute => (hother route hroute).elim (h route) id
  | some found =>
    obtain ⟨D, route, more, hplug, hanswers, hwins⟩ := h
    refine ⟨D, route, more, hplug, hanswers, hsub _ hwins.mem, hwins.captured, ?_⟩
    intro other hmem hmatch
    exact hwins.first other ((hother other hmem).resolve_right hmatch) hmatch

theorem Settles.shift {front : List (List Char)} (h : Settles whole routes above' path' found)
    (hshift : ∀ route ∈ routes,
      route.behind? above path = (route.behind? above' path').map (front ++ ·)) :
    Settles whole routes above path (behind front found) := by
  cases found with
  | none =>
    intro route hroute
    rw [hshift route hroute, h route hroute]
    rfl
  | some found =>
    obtain ⟨D, route, more, hplug, hanswers, hwins⟩ := h
    refine ⟨D, route, more, hplug, hanswers, hwins.mem, ?_, fun other hmem hmatch => ?_⟩
    · rw [hshift route hwins.mem, hwins.captured, List.append_assoc]
      rfl
    · refine hwins.first other hmem fun hnone => hmatch ?_
      rw [hshift other hmem, hnone]
      rfl

theorem Settles.or (h : Settles whole routes above path found)
    (h' : Settles whole routes' above path found')
    (hbefore : ∀ a ∈ routes, ∀ b ∈ routes', precedes a.path b.path = true) :
    Settles whole (routes ++ routes') above path (found.or found') := by
  cases found with
  | none =>
    rw [Option.none_or]
    refine h'.widen (fun route => List.mem_append_right _) fun route hroute => ?_
    exact (List.mem_append.mp hroute).elim (fun hroute => .inr (h route hroute)) .inl
  | some found =>
    obtain ⟨D, route, more, hplug, hanswers, hwins⟩ := h
    refine ⟨D, route, more, hplug, hanswers, List.mem_append_left _ hwins.mem, hwins.captured, ?_⟩
    intro other hmem hmatch
    rcases List.mem_append.mp hmem with hmem | hmem
    · exact hwins.first other hmem hmatch
    · exact .inr (hbefore route hwins.mem other hmem)

end settles

/-! ### The routes below a node -/

theorem Route.behind?_eq {route : Route H} {above pattern : List Char}
    (h : route.path = above ++ pattern) (path : List Char) :
    route.behind? above path = captures? pattern path := by
  rw [behind?, h, after?_append]
  rfl

/-- The labels are ordered as the kinds. -/
theorem Content.Sound.rank_label {c : Content H} {path : List Char} (h : c.Sound path) :
    rank c.label = c.kind.rank := by
  obtain ⟨text, htext⟩ := h.text_eq
  have hfits := h.fits
  rw [htext] at hfits
  cases hkind : c.kind with
  | static =>
    rw [hkind] at hfits
    obtain ⟨hcolon, hstar⟩ :=
      literal_singleton.mp (literal_append.mp (show Literal ([c.label] ++ text) from hfits)).1
    rw [rank, if_neg hcolon, if_neg hstar]
    rfl
  | param =>
    rw [hkind] at hfits
    rw [(List.cons.inj (show c.label :: text = [':'] from hfits)).1]
    rfl
  | wildcard =>
    rw [hkind] at hfits
    rw [(List.cons.inj (show c.label :: text = ['*'] from hfits)).1]
    rfl

namespace Tree

theorem mem_routesAt {n : Tree H} {above : List Char} (parent : Option Slot) {route : Route H} :
    route ∈ n.routesAt above ↔ ∃ c ∈ n.cells above parent, c.route? = some route := by
  rw [← filterMap_cells above parent, List.mem_filterMap]

theorem path_of_routesAt {n : Tree H} {above : List Char} {route : Route H}
    (h : route ∈ n.routesAt above) : ∃ tail, route.path = above ++ n.content.text ++ tail := by
  obtain ⟨c, hc, hroute⟩ := (mem_routesAt none).mp h
  obtain ⟨tail, htail⟩ := path_of_mem_cells hc
  exact ⟨tail, by rw [Cell.path_of_route? hroute, htail]⟩

/-- The routes below the children of a kind. -/
def routesOf (kind : Kind) (path : List Char) (n : Tree H) : List (Route H) :=
  (n.children.filter (·.content.kind == kind)).flatMap (routesAt path)

theorem mem_routesOf {n : Tree H} {kind : Kind} {path : List Char} {route : Route H} :
    route ∈ n.routesOf kind path ↔
      ∃ m ∈ n.children, m.content.kind = kind ∧ route ∈ m.routesAt path := by
  simp only [routesOf, List.mem_flatMap, List.mem_filter, beq_iff_eq, and_assoc]

/-- A route of a node is its own or below one of its children. -/
theorem mem_routesAt_iff {n : Tree H} {above : List Char} {route : Route H} :
    route ∈ n.routesAt above ↔ n.content.routeAt (above ++ n.content.text) = some route ∨
      ∃ m ∈ n.children, route ∈ m.routesAt (above ++ n.content.text) := by
  rw [routesAt_eq, List.mem_append, Option.mem_toList, List.mem_flatMap]

end Tree

/-- A part of a tree whose nodes are sound and tight, in its place. -/
structure Part (whole : Tree H) (C : Context H) (n : Tree H) : Prop where
  plug : whole = C.plug n
  all_sound : ∀ c ∈ whole.all, c.Sound
  all_tight : ∀ c ∈ whole.all, c.Tight

namespace Part
variable {whole n m : Tree H} {C : Context H}

theorem mem_all (h : Part whole C n) {c : Cell H} (hc : c ∈ n.cells C.above C.parent) :
    c ∈ whole.all := by
  rw [h.plug]
  exact Context.mem_of_part hc

theorem sound (h : Part whole C n) : ∀ c ∈ n.cells C.above C.parent, c.Sound := fun _ hc =>
  h.all_sound _ (h.mem_all hc)

theorem top (h : Part whole C n) : (n.top C.above C.parent).Sound :=
  h.sound _ Tree.top_mem

theorem child (h : Part whole C n) (hm : m ∈ n.children) : ∃ D : Context H,
    Part whole D m ∧ D.above = C.above ++ n.content.text ∧ D.parent = some n.slot := by
  obtain ⟨slot, content, children⟩ := n
  obtain ⟨left, right, rfl⟩ := List.append_of_mem (show m ∈ children from hm)
  exact ⟨C.under slot content left right, ⟨h.plug, h.all_sound, h.all_tight⟩, rfl, rfl⟩

theorem child_sound (h : Part whole C n) (hm : m ∈ n.children) :
    m.content.Sound (C.above ++ n.content.text ++ m.content.text) := by
  obtain ⟨D, hD, habove, -⟩ := h.child hm
  rw [← habove]
  exact hD.top.content

/-- A route below a child goes on with the child's label. -/
theorem path_of_child (h : Part whole C n) (hm : m ∈ n.children) {route : Route H}
    (hroute : route ∈ m.routesAt (C.above ++ n.content.text)) :
    ∃ tail, route.path = C.above ++ n.content.text ++ m.content.label :: tail := by
  obtain ⟨c, hc, hroute⟩ := (Tree.mem_routesAt (some n.slot)).mp hroute
  obtain ⟨tail, htail⟩ := Tree.child_of_beneath h.sound hm hc
  exact ⟨tail, by rw [Cell.path_of_route? hroute, htail]⟩

/-- The routes below children of an earlier kind come first. -/
theorem precedes (h : Part whole C n) {kind kind' : Kind} (hlt : kind.rank < kind'.rank)
    {route route' : Route H} (hroute : route ∈ n.routesOf kind (C.above ++ n.content.text))
    (hroute' : route' ∈ n.routesOf kind' (C.above ++ n.content.text)) :
    Text.precedes route.path route'.path = true := by
  obtain ⟨m, hm, hkind, hroute⟩ := Tree.mem_routesOf.mp hroute
  obtain ⟨m', hm', hkind', hroute'⟩ := Tree.mem_routesOf.mp hroute'
  obtain ⟨tail, htail⟩ := h.path_of_child hm hroute
  obtain ⟨tail', htail'⟩ := h.path_of_child hm' hroute'
  rw [htail, htail']
  apply precedes_of_rank_lt
  rw [(h.child_sound hm).rank_label, (h.child_sound hm').rank_label, hkind, hkind']
  exact hlt

/-! ### One kind of child -/

/-- All children of a parameter's or a wildcard's kind have the same label. -/
theorem label_eq (h : Part whole C n) (hm : m ∈ n.children) :
    (m.content.kind = .param → m.content.label = ':') ∧
      (m.content.kind = .wildcard → m.content.label = '*') := by
  have hsound := h.child_sound hm
  have hfits := hsound.fits
  refine ⟨fun hkind => ?_, fun hkind => ?_⟩
  · rw [hkind] at hfits
    rw [hsound.label, show m.content.text = [':'] from hfits]
    rfl
  · rw [hkind] at hfits
    rw [hsound.label, show m.content.text = ['*'] from hfits]
    rfl

/-- A node has one parameter and one wildcard at most. -/
theorem eq_of_kind (h : Part whole C n) {m' : Tree H} (hm : m ∈ n.children)
    (hm' : m' ∈ n.children) {kind : Kind} (hkind : m.content.kind = kind)
    (hkind' : m'.content.kind = kind) (hne : kind ≠ .static) : m' = m := by
  apply Tree.eq_of_label_eq h.top hm' hm
  cases kind with
  | static => exact (hne rfl).elim
  | param => rw [(h.label_eq hm).1 hkind, (h.label_eq hm').1 hkind']
  | wildcard => rw [(h.label_eq hm).2 hkind, (h.label_eq hm').2 hkind']

/-- A static child matches only what begins with its label. -/
theorem unmatched_static (h : Part whole C n) (hm : m ∈ n.children)
    (hkind : m.content.kind = .static) {path : List Char}
    (hlabel : path.head? ≠ some m.content.label) {route : Route H}
    (hroute : route ∈ m.routesAt (C.above ++ n.content.text)) :
    route.behind? (C.above ++ n.content.text) path = none := by
  obtain ⟨tail, htail⟩ := h.path_of_child hm hroute
  have hsound := h.child_sound hm
  obtain ⟨text, htext⟩ := hsound.text_eq
  have hfits := hsound.fits
  rw [hkind, htext] at hfits
  have hliteral : Literal [m.content.label] :=
    (literal_append.mp (show Literal ([m.content.label] ++ text) from hfits)).1
  rw [Route.behind?_eq htail, captures?_cons hliteral, if_neg hlabel]

/-- A parameter does not match where the path has no text up to the next `/`. -/
theorem behind?_param (h : Part whole C n) (hm : m ∈ n.children) (hkind : m.content.kind = .param)
    (path : List Char) {route : Route H} (hroute : route ∈ m.routesAt (C.above ++ n.content.text)) :
    route.behind? (C.above ++ n.content.text) path =
      if path.takeWhile (· ≠ '/') = [] then none
      else (route.behind? (C.above ++ n.content.text ++ m.content.text)
        (path.dropWhile (· ≠ '/'))).map (path.takeWhile (· ≠ '/') :: ·) := by
  have hfits := (h.child_sound hm).fits
  rw [hkind] at hfits
  obtain ⟨tail, htail⟩ := Tree.path_of_routesAt hroute
  rw [Route.behind?_eq htail, Route.behind?_eq (htail.trans (List.append_assoc ..)),
    show m.content.text = [':'] from hfits, List.singleton_append, captures?_param]

/-- A wildcard ends a route, and no other is below it. -/
theorem wildcard_route (h : Part whole C n) (hm : m ∈ n.children)
    (hkind : m.content.kind = .wildcard) : m.content.text = ['*'] ∧ m.children = [] ∧
      ∃ route, m.content.routeAt (C.above ++ n.content.text ++ m.content.text) = some route ∧
        m.routesAt (C.above ++ n.content.text) = [route] := by
  obtain ⟨D, hD, habove, hparent⟩ := h.child hm
  have hfits := hD.top.content.fits
  have hkids := hD.top.kids
  rw [show (m.top D.above D.parent).content.kind = .wildcard from hkind] at hfits hkids
  have hchildren : m.children = [] := List.map_eq_nil_iff.mp hkids
  have hroute : m.content.hasRoute = true := by
    rcases hD.all_tight _ (hD.mem_all Tree.top_mem) with hroute | ⟨hne, -⟩
    · exact hroute
    · exact (hne hkids).elim
  have hat := Content.routeAt_of_hasRoute hroute (C.above ++ n.content.text ++ m.content.text)
  refine ⟨hfits, hchildren, _, hat, ?_⟩
  rw [Tree.routesAt_eq, hat, hchildren]
  rfl

/-- The recursion below one child settles all that is below children of its kind, if the others
of the kind do not match. -/
theorem settles_kind (hm : m ∈ n.children)
    {kind : Kind} (hkind : m.content.kind = kind) {above path : List Char}
    {found : Option (Tree H × List (List Char))}
    (h : Settles whole (m.routesAt above) above path found)
    (hother : ∀ m' ∈ n.children, m'.content.kind = kind → m' = m ∨
      ∀ route ∈ m'.routesAt above, route.behind? above path = none) :
    Settles whole (n.routesOf kind above) above path found := by
  refine h.widen (fun route hroute => Tree.mem_routesOf.mpr ⟨m, hm, hkind, hroute⟩) ?_
  intro route hroute
  obtain ⟨m', hm', hkind', hroute⟩ := Tree.mem_routesOf.mp hroute
  rcases hother m' hm' hkind' with rfl | hnone
  · exact .inl hroute
  · exact .inr (hnone route hroute)

/-- Coming to a static node is passing its text. -/
theorem settles_enter (hkind : n.content.kind = .static) (h : Part whole C n) (path : List Char)
    (ih : ∀ rest,
      Settles whole (n.routesAt C.above) (C.above ++ n.content.text) rest (n.seek rest)) :
    Settles whole (n.routesAt C.above) C.above path (n.enter path) := by
  have hfits := h.top.content.fits
  rw [show (n.top C.above C.parent).content.kind = .static from hkind] at hfits
  have hbehind : ∀ route ∈ n.routesAt C.above, route.behind? C.above path =
      (after? n.content.text path).bind (route.behind? (C.above ++ n.content.text)) := by
    intro route hroute
    obtain ⟨tail, htail⟩ := Tree.path_of_routesAt hroute
    rw [Route.behind?_eq (htail.trans (List.append_assoc ..)),
      captures?_literal (show Literal n.content.text from hfits)]
    exact congrArg _ (funext fun rest => (Route.behind?_eq htail rest).symm)
  rw [Tree.enter, if_pos hkind]
  cases hafter : after? n.content.text path with
  | none =>
    intro route hroute
    rw [hbehind route hroute, hafter]
    rfl
  | some rest =>
    rw [Option.bind_some, ← behind_nil (n.seek rest)]
    refine (ih rest).shift fun route hroute => ?_
    rw [hbehind route hroute, hafter, Option.bind_some]
    exact Option.map_id'.symm

section children
variable (h : Part whole C n) (path : List Char)
  (ih : ∀ m ∈ n.children, ∀ rest, Settles whole (m.routesAt (C.above ++ n.content.text))
    (C.above ++ n.content.text ++ m.content.text) rest (m.seek rest))
include h ih

theorem settles_static {c : Char} {rest : List Char} (hpath : path = c :: rest) :
    Settles whole (n.routesOf .static (C.above ++ n.content.text)) (C.above ++ n.content.text) path
      (n.static path) := by
  have hlabel : labelOf path = c := by
    rw [hpath, labelOf_cons]
  rw [Tree.static, hlabel]
  cases hfind : n.child? fun m => m.label == c && m.kind == .static with
  | none =>
    intro route hroute
    obtain ⟨m, hm, hkind, hroute⟩ := Tree.mem_routesOf.mp hroute
    refine h.unmatched_static hm hkind (fun heq => ?_) hroute
    have htest := List.find?_eq_none.mp hfind m hm
    rw [hpath, List.head?_cons, Option.some_inj] at heq
    simp [heq, hkind] at htest
  | some m =>
    obtain ⟨hm, htest⟩ := Tree.child?_mem hfind
    rw [Bool.and_eq_true, beq_iff_eq, beq_iff_eq] at htest
    obtain ⟨D, hD, habove, -⟩ := h.child hm
    rw [Option.bind_some]
    refine settles_kind hm htest.2 ?_ fun m' hm' hkind' => ?_
    · rw [← habove]
      apply settles_enter htest.2 hD path
      rw [habove]
      exact ih m hm
    · by_cases hsame : m'.content.label = c
      · exact .inl (Tree.eq_of_label_eq h.top hm' hm (hsame.trans htest.1.symm))
      · refine .inr fun route hroute => h.unmatched_static hm' hkind' (fun heq => ?_) hroute
        rw [hpath, List.head?_cons, Option.some_inj] at heq
        exact hsame heq.symm

theorem settles_param : Settles whole (n.routesOf .param (C.above ++ n.content.text))
    (C.above ++ n.content.text) path (n.param path) := by
  unfold Tree.param
  cases hfind : n.child? (·.kind == .param) with
  | none =>
    intro route hroute
    obtain ⟨m, hm, hkind, -⟩ := Tree.mem_routesOf.mp hroute
    exact (List.find?_eq_none.mp hfind m hm (beq_iff_eq.mpr hkind)).elim
  | some m =>
    obtain ⟨hm, htest⟩ := Tree.child?_mem hfind
    have hkind : m.content.kind = .param := eq_of_beq htest
    have hother : ¬ m.content.kind = .static := by
      rw [hkind]
      decide
    rw [Option.bind_some]
    refine settles_kind hm hkind ?_ fun m' hm' hkind' =>
      .inl (h.eq_of_kind hm hm' hkind hkind' (by decide))
    by_cases hstop : path.takeWhile (· ≠ '/') = []
    · rw [if_pos hstop]
      intro route hroute
      rw [h.behind?_param hm hkind path hroute, if_pos hstop]
    · rw [if_neg hstop, Tree.enter, if_neg hother, Option.bind_some]
      have hshift : ∀ route ∈ m.routesAt (C.above ++ n.content.text),
          route.behind? (C.above ++ n.content.text) path =
            (route.behind? (C.above ++ n.content.text ++ m.content.text)
              (path.dropWhile (· ≠ '/'))).map ([path.takeWhile (· ≠ '/')] ++ ·) := by
        intro route hroute
        rw [h.behind?_param hm hkind path hroute, if_neg hstop]
        rfl
      exact (ih m hm _).shift hshift

omit ih in
theorem settles_wildcard : Settles whole (n.routesOf .wildcard (C.above ++ n.content.text))
    (C.above ++ n.content.text) path (n.wildcard path) := by
  unfold Tree.wildcard
  cases hfind : n.child? (·.kind == Kind.wildcard) with
  | none =>
    intro route hroute
    obtain ⟨m, hm, hkind, -⟩ := Tree.mem_routesOf.mp hroute
    exact (List.find?_eq_none.mp hfind m hm (beq_iff_eq.mpr hkind)).elim
  | some m =>
    obtain ⟨hm, htest⟩ := Tree.child?_mem hfind
    have hkind : m.content.kind = .wildcard := eq_of_beq htest
    obtain ⟨htext, -, route, hat, hroutes⟩ := h.wildcard_route hm hkind
    obtain ⟨D, hD, habove, -⟩ := h.child hm
    rw [Option.map_some]
    refine settles_kind hm hkind ?_ fun m' hm' hkind' =>
      .inl (h.eq_of_kind hm hm' hkind hkind' (by decide))
    rw [hroutes]
    refine ⟨D, route, [], hD.plug, .own (habove ▸ hat), List.mem_singleton_self _, ?_, ?_⟩
    · have hpath := congrArg Route.path (Content.routeAt_eq_some.mp hat).2
      rw [Route.behind?_eq hpath, htext, captures?_wildcard]
      rfl
    · exact fun other hother _ => .inl (List.mem_singleton.mp hother)

end children

/-- Below a node at which a path ends only a wildcard matches. -/
theorem unmatched_nil (h : Part whole C n) (hm : m ∈ n.children)
    (hkind : m.content.kind ≠ .wildcard) {route : Route H}
    (hroute : route ∈ m.routesAt (C.above ++ n.content.text)) :
    route.behind? (C.above ++ n.content.text) [] = none := by
  cases hkind' : m.content.kind with
  | static =>
    have hlabel : ([] : List Char).head? ≠ some m.content.label := (Option.some_ne_none _).symm
    exact h.unmatched_static hm hkind' hlabel hroute
  | param => exact h.behind?_param hm hkind' [] hroute
  | wildcard => exact (hkind hkind').elim

/-- A node's own route comes before all that go on. -/
theorem settles_own (h : Part whole C n) (hroute : n.content.hasRoute = true) :
    Settles whole (n.routesAt C.above) (C.above ++ n.content.text) [] (some (n, [])) := by
  have hat := Content.routeAt_of_hasRoute hroute (C.above ++ n.content.text)
  refine ⟨C, _, [], h.plug, .own hat, Tree.mem_routesAt_iff.mpr (.inl hat), ?_, ?_⟩
  · exact Route.behind?_eq (List.append_nil _).symm []
  · intro other hother _
    rcases Tree.mem_routesAt_iff.mp hother with hsame | ⟨m, hm, hother⟩
    · exact .inl (Option.some.inj (hsame.symm.trans hat))
    · obtain ⟨tail, htail⟩ := h.path_of_child hm hother
      rw [htail]
      exact .inr (precedes_longer ..)

/-- A path that ends at a node is served there, or by the wildcard below. -/
theorem settles_nil (h : Part whole C n) :
    Settles whole (n.routesAt C.above) (C.above ++ n.content.text) [] (n.seek []) := by
  rw [Tree.seek_nil, Tree.accepts]
  cases hroute : n.content.hasRoute with
  | true => exact h.settles_own hroute
  | false =>
    have hno (route : Route H) :
        n.content.routeAt (C.above ++ n.content.text) ≠ some route := by
      rw [Content.routeAt_eq_none hroute]
      exact (Option.some_ne_none route).symm
    rw [Bool.false_or]
    cases hfind : n.child? (·.kind == Kind.wildcard) with
    | none =>
      intro route hmem
      rcases Tree.mem_routesAt_iff.mp hmem with hat | ⟨m, hm, hmem⟩
      · exact (hno route hat).elim
      · refine h.unmatched_nil hm (fun hkind => ?_) hmem
        exact List.find?_eq_none.mp hfind m hm (beq_iff_eq.mpr hkind)
    | some x =>
      obtain ⟨hx, htest⟩ := Tree.child?_mem hfind
      have hkind : x.content.kind = .wildcard := eq_of_beq htest
      obtain ⟨htext, -, route, hat, hroutes⟩ := h.wildcard_route hx hkind
      have hmem : route ∈ x.routesAt (C.above ++ n.content.text) := by
        rw [hroutes]
        exact List.mem_singleton_self _
      refine ⟨C, route, [[]], h.plug, .wildcard hroute hfind hat,
        Tree.mem_routesAt_iff.mpr (.inr ⟨x, hx, hmem⟩), ?_, fun other hother hmatch => .inl ?_⟩
      · rw [Route.behind?_eq (congrArg Route.path (Content.routeAt_eq_some.mp hat).2), htext,
          captures?_wildcard]
        rfl
      · rcases Tree.mem_routesAt_iff.mp hother with hsame | ⟨m, hm, hother⟩
        · exact (hno other hsame).elim
        · by_cases hkind' : m.content.kind = .wildcard
          · rw [h.eq_of_kind hx hm hkind hkind' (by decide), hroutes] at hother
            exact List.mem_singleton.mp hother
          · exact (hmatch (h.unmatched_nil hm hkind' hother)).elim

/-- Where a path leads from a node, the first of the routes below that match is. -/
theorem settles_seek (h : Part whole C n) (path : List Char) :
    Settles whole (n.routesAt C.above) (C.above ++ n.content.text) path (n.seek path) := by
  induction n using Tree.induction generalizing C path with
  | step slot content children ih =>
    generalize hn : Tree.node slot content children = n at *
    have hbelow : ∀ m ∈ n.children, ∀ rest, Settles whole (m.routesAt (C.above ++ n.content.text))
        (C.above ++ n.content.text ++ m.content.text) rest (m.seek rest) := by
      intro m hm rest
      obtain ⟨D, hD, habove, -⟩ := h.child hm
      rw [← habove]
      rw [← hn] at hm
      exact ih m hm hD rest
    cases path with
    | nil => exact h.settles_nil
    | cons c rest =>
      rw [Tree.seek_cons]
      refine ((h.settles_static _ hbelow rfl).or ((h.settles_param _ hbelow).or
        (h.settles_wildcard _) ?_) ?_).widen ?_ ?_
      · exact fun a ha b hb => h.precedes (by decide) ha hb
      · intro a ha b hb
        rcases List.mem_append.mp hb with hb | hb
        · exact h.precedes (by decide) ha hb
        · exact h.precedes (by decide) ha hb
      · intro route hroute
        have hkind : ∃ kind, route ∈ n.routesOf kind (C.above ++ n.content.text) := by
          simp only [List.mem_append] at hroute
          rcases hroute with hroute | hroute | hroute <;> exact ⟨_, hroute⟩
        obtain ⟨kind, hroute⟩ := hkind
        obtain ⟨m, hm, -, hroute⟩ := Tree.mem_routesOf.mp hroute
        exact Tree.mem_routesAt_iff.mpr (.inr ⟨m, hm, hroute⟩)
      · intro route hroute
        rcases Tree.mem_routesAt_iff.mp hroute with hat | ⟨m, hm, hroute⟩
        · refine .inr ?_
          have hpath := congrArg Route.path (Content.routeAt_eq_some.mp hat).2
          rw [Route.behind?_eq (hpath.trans (List.append_nil _).symm)]
          rfl
        · have hof := Tree.mem_routesOf.mpr ⟨m, hm, rfl, hroute⟩
          refine .inl ?_
          simp only [List.mem_append]
          cases hkind : m.content.kind with
          | static => exact .inl (hkind ▸ hof)
          | param => exact .inr (.inl (hkind ▸ hof))
          | wildcard => exact .inr (.inr (hkind ▸ hof))

end Part

/-- A path asked of a tree leads to the first of the routes that match. -/
theorem Tree.settles {n : Tree H} (hsound : ∀ c ∈ n.all, c.Sound) (htight : ∀ c ∈ n.all, c.Tight)
    (path : List Char) : Settles n n.routes [] path (n.enter path) := by
  have hpart : Part n .hole n := ⟨rfl, hsound, htight⟩
  exact hpart.settles_enter (hpart.top.root rfl).1 path hpart.settles_seek

end Routing.Trie

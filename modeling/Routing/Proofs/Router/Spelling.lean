import Routing.Proofs.Router.Rebuild

/-! Tables that are spelled differently.

A path has one route, which keeps the pattern that it was first registered with; another pattern of
the same path may name its parameters otherwise. Tables with the same paths and the same handlers
answer a lookup alike, whatever their routes' patterns are: only names of parameters can tell them
apart (`lookup_alike`). -/
namespace Routing
open Trie
variable {H : Type}

/-- What is found under two spellings of a route: all but the names of the parameters is the same,
and these are the same or spelled as this relation says. -/
structure Found.Alike (spelled : List String → List String → Prop) (found found' : Found H) :
    Prop where
  handler : found'.handler = found.handler
  count : found'.count = found.count
  values : found'.params.values = found.params.values
  names : found'.params.names = found.params.names ∨
    spelled found.params.names found'.params.names

section alike
variable {spelled : List String → List String → Prop}

theorem Found.alike_self (found : Found H) : Found.Alike spelled found found :=
  ⟨rfl, rfl, rfl, .inl rfl⟩

/-- Two spellings of a route: the same path, with the same handlers. -/
structure Trie.Route.Alike (spelled : List String → List String → Prop) (route route' : Route H) :
    Prop where
  path : route'.path = route.path
  methods : route'.methods = route.methods
  params : route'.params = route.params ∨ spelled route.params route'.params

theorem Trie.Route.Alike.serve? {route route' : Route H} (h : Route.Alike spelled route route')
    (method : String) (texts : List (List Char)) :
    Option.Rel (Found.Alike spelled) (route.serve? method texts) (route'.serve? method texts) := by
  rw [Route.serve?, Route.serve?, h.methods]
  cases (route.methods.own? method).or route.methods.any with
  | none => exact .none
  | some handler => exact .some ⟨rfl, rfl, rfl, h.params⟩

variable {routes routes' : List (Route H)}
  (hpairs : ∀ route ∈ routes, ∃ route' ∈ routes', Route.Alike spelled route route')
  (hback : ∀ route' ∈ routes', ∃ route ∈ routes, route'.path = route.path)
  (hnodup : (routes.map Route.path).Nodup) (hnodup' : (routes'.map Route.path).Nodup)
include hpairs hback hnodup'

/-- The first of the routes that match has the same path in both tables. -/
theorem Trie.Wins.alike {path : List Char} {route : Route H} {texts : List (List Char)}
    (h : Wins routes [] path route texts) :
    ∃ route', Route.Alike spelled route route' ∧ Wins routes' [] path route' texts := by
  obtain ⟨route', hroute', halike⟩ := hpairs route h.mem
  refine ⟨route', halike, hroute', ?_, fun other' hother' hmatch => ?_⟩
  · rw [Route.behind?, halike.path]
    exact h.captured
  · obtain ⟨other, hother, hpath⟩ := hback other' hother'
    rw [Route.behind?, hpath] at hmatch
    rcases h.first other hother hmatch with rfl | hbefore
    · exact .inl (List.inj_on_of_nodup_map hnodup' hother' hroute' (hpath.trans halike.path.symm))
    · rw [halike.path, hpath]
      exact .inr hbefore

include hnodup

/-- The routes at a path are spellings of the same. -/
theorem find?_path_alike (path : List Char) : Option.Rel (Route.Alike spelled)
    (routes.find? fun other => other.path == path)
    (routes'.find? fun other => other.path == path) := by
  cases hfind : routes.find? fun other => other.path == path with
  | some other =>
    obtain ⟨hother, rfl⟩ := (find?_path_eq_some hnodup).mp hfind
    obtain ⟨other', hother', halike⟩ := hpairs other hother
    rw [(find?_path_eq_some hnodup').mpr ⟨hother', halike.path⟩]
    exact .some halike
  | none =>
    rw [List.find?_eq_none.mpr]
    · exact .none
    · intro other' hother' heq
      obtain ⟨other, hother, hpath⟩ := hback other' hother'
      exact List.find?_eq_none.mp hfind other hother (by rwa [← hpath])

/-- Lookups in two tables that differ in spelling only. -/
theorem lookup_alike (h : Firsts routes) (notFound notAllowed : H) (method path : String) :
    Found.Alike spelled (lookup notFound notAllowed routes method path)
      (lookup notFound notAllowed routes' method path) := by
  rw [lookup, lookup]
  rcases h (if path = "" then ['/'] else path.toList) with hnone | ⟨route, texts, hwins⟩
  · have hnone' : ∀ route' ∈ routes',
        route'.behind? [] (if path = "" then ['/'] else path.toList) = none := by
      intro route' hroute'
      obtain ⟨route, hroute, hpath⟩ := hback route' hroute'
      rw [Route.behind?, hpath]
      exact hnone route hroute
    rw [matching_eq_nil hnone, matching_eq_nil hnone']
    exact Found.alike_self _
  · obtain ⟨route', halike, hwins'⟩ := hwins.alike hpairs hback hnodup'
    rw [hwins.best_eq, hwins'.best_eq]
    dsimp only
    have hfurther := find?_path_alike hpairs hback hnodup hnodup' (route.path ++ ['*'])
    have hown := halike.serve? method texts
    rw [halike.path]
    generalize route.serve? method texts = own at hown
    generalize route'.serve? method texts = own' at hown
    generalize (routes.find? fun other => other.path == route.path ++ ['*']) = other at hfurther
    generalize (routes'.find? fun other => other.path == route.path ++ ['*']) = other' at hfurther
    cases hown with
    | some hfound => exact hfound
    | none =>
      cases hfurther with
      | none => exact Found.alike_self _
      | @some other other' hother =>
        have hlast := hother.serve? method (texts ++ [[]])
        rw [Option.none_or, Option.none_or, Option.bind_some, Option.bind_some]
        generalize other.serve? method (texts ++ [[]]) = last at hlast
        generalize other'.serve? method (texts ++ [[]]) = last' at hlast
        cases hlast with
        | some hfound => exact hfound
        | none => exact Found.alike_self _

end alike

end Routing

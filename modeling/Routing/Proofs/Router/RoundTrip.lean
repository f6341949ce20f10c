import Routing.Proofs.Router.Rebuild
import Routing.Proofs.Router.Session
import Routing.Proofs.Url

/-! URLs lead back to their routes.

A URL built for a name is matched by the path of the name's pattern, which captures the values it
was built from. So a search for it ends at a live route, and at that of the pattern unless another
one that matches comes first (`Router.url_leadsBack`). -/
namespace Routing
open Trie
variable {H : Type}

/-- A route that matches, and that no other that matches comes before, is the first in order. -/
theorem Firsts.best_eq {routes : List (Route H)} (h : Firsts routes) {route : Route H}
    (hroute : route ∈ routes) {path : List Char} {texts : List (List Char)}
    (hcaptured : Text.captures? route.path path = some texts)
    (hfirst : ∀ other ∈ routes, Text.captures? other.path path ≠ none →
      Text.precedes other.path route.path = false) :
    best (matching routes path) = some (route, texts) := by
  have hmatch : route.behind? [] path = some texts := hcaptured
  rcases h path with hnone | ⟨winner, captured, hwins⟩
  · rw [hnone route hroute] at hmatch
    cases hmatch
  · have hwinner : Text.captures? winner.path path = some captured := hwins.captured
    rcases hwins.first route hroute (by rw [hmatch]; exact Option.some_ne_none _) with rfl | hbefore
    · obtain rfl := Option.some.inj (hwinner.symm.trans hcaptured)
      exact hwins.best_eq
    · rw [hfirst winner hwins.mem (by rw [hwinner]; exact Option.some_ne_none _)] at hbefore
      cases hbefore

namespace Router

/-- The pattern of a name has a live route at its path. -/
theorem Keeps.exists_named {r : Router H} {routes : List (Route H)} (h : r.Keeps routes)
    {name text : String} (hname : r.routePath? name = some text) :
    ∃ pattern, Pattern.parse text = .ok pattern ∧ pattern.text = text ∧
      ∃ route ∈ routes, route.path = pattern.path := by
  have hne : name ≠ "" := by
    rintro rfl
    rw [routePath?, h.agrees.unnamed] at hname
    cases hname
  obtain ⟨entry, hentry, -⟩ := (h.agrees.names name text hne).mp hname
  obtain ⟨pattern, hparse, htext, hpath⟩ := h.agrees.reads text entry hentry
  obtain ⟨route, hroute, hsame⟩ := h.agrees.live text entry hentry
  exact ⟨pattern, hparse, htext, route, hroute, hsame.trans hpath.symm⟩

/-- A search for what a live route matches ends at a live route. -/
theorem Keeps.serves {r : Router H} {routes : List (Route H)} (h : r.Keeps routes)
    {route : Route H} (hroute : route ∈ routes) {path : List Char}
    (hcaptured : Text.captures? route.path path ≠ none) :
    ∃ slot node, serving? r.trie path = some (some slot) ∧ r.trie.node? slot = some node ∧
      node.hasRoute = true := by
  obtain ⟨n, hholds, hn, rfl⟩ := h.exists_tree
  obtain ⟨found, hfound, hends⟩ := serving?_eq hholds hn path
  rcases hn.firsts path with hnone | ⟨winner, texts, hwins⟩
  · exact absurd (hnone route hroute) hcaptured
  · rw [hwins.best_eq] at hends
    cases hends with
    | some =>
      obtain ⟨node, hnode, hhas⟩ := serving?_eq_some hfound
      exact ⟨_, node, hfound, hnode, hhas⟩

/-- A search for what a live route matches, and no other that matches comes before, gives the
handler of a method of its own. -/
theorem Keeps.find_own {r : Router H} {routes : List (Route H)} (h : r.Keeps routes)
    {route : Route H} (hroute : route ∈ routes) {path : String} {texts : List (List Char)}
    (hcaptured : Text.captures? route.path path.toList = some texts) (hne : path ≠ "")
    (hfirst : ∀ other ∈ routes, Text.captures? other.path path.toList ≠ none →
      Text.precedes other.path route.path = false)
    {method : String} {handler : H} (hown : route.methods.own? method = some handler)
    (params : Params) :
    r.find method path params =
      ⟨handler, texts.length, ⟨route.params, texts.map String.ofList⟩⟩ := by
  obtain ⟨n, -, hn, rfl⟩ := h.exists_tree
  have hbest := hn.firsts.best_eq hroute hcaptured hfirst
  have hserve : route.serve? method texts =
      some ⟨handler, texts.length, ⟨route.params, texts.map String.ofList⟩⟩ := by
    rw [Route.serve?, hown, Option.some_or]
    rfl
  rw [h.find_eq, lookup, if_neg hne, hbest]
  simp only [hserve, Option.some_or, Option.getD_some]

/-- What the URL of a name is when the values are written whole, as these texts. -/
theorem url_eq {r : Router H} (hdrafts : r.drafts.Wiped) {name text : String}
    (hname : r.routePath? name = some text) {values : List Url.Value} {texts : List (List Char)}
    (hvalues : values.map Url.Value.render = texts.map fun text => ⟨text, true⟩) :
    (r.url name values).value.url =
      String.ofList (Piece.fill (Piece.ofPattern text.toList) texts) := by
  have hrendered : values.map (fun value => value.render.text) = texts := by
    have := congrArg (List.map Url.Rendering.text) hvalues
    simpa [Function.comp_def] using this
  have hcomplete : ∀ value ∈ values, value.render.complete = true := fun value hvalue => by
    obtain ⟨text, -, heq⟩ := List.mem_map.mp (hvalues ▸ List.mem_map_of_mem hvalue)
    rw [← heq]
  have hexpand : Url.expand [] text values =
      ⟨Piece.fill (Piece.ofPattern text.toList) texts, true⟩ := by
    rw [Url.expand_eq,
      Url.writePieces_eq [] fun value hvalue => hcomplete value (List.take_subset _ _ hvalue),
      hrendered]
    rfl
  rw [url_named hdrafts hname, hexpand, if_pos rfl]

/-- A URL leads back to the route of a pattern, which captures these texts of it. -/
structure LeadsBack (r : Router H) (pattern : Pattern) (url : String)
    (texts : List (List Char)) : Prop where
  captured : Text.captures? pattern.path url.toList = some texts
  /-- A search for the URL ends at a live route. -/
  served : ∃ slot node, serving? r.trie url.toList = some (some slot) ∧
    r.trie.node? slot = some node ∧ node.hasRoute = true
  /-- The pattern's path has a route, and where none of the others that match comes before it, a
  lookup for a method of its own gives the handler and the texts. -/
  found : ∃ routes route, r.trie.routes? = some routes ∧ route ∈ routes ∧
    route.path = pattern.path ∧
    ((∀ other ∈ routes, Text.captures? other.path url.toList ≠ none →
        Text.precedes other.path pattern.path = false) →
      ∀ method handler, route.methods.own? method = some handler → ∀ params,
        r.find method url params =
          ⟨handler, texts.length, ⟨route.params, texts.map String.ofList⟩⟩)

/-- Whatever was done with a router before, a URL leads back: it is built for a name from a value
for each placeholder of its pattern, where no `:` is given a text that is empty or has a `/` in
it. -/
theorem url_leadsBack (notFound notAllowed : H) (steps : List (Step H)) {name text : String}
    (hname : (ran notFound notAllowed steps).routePath? name = some text)
    {values : List Url.Value} {texts : List (List Char)}
    (hvalues : values.map Url.Value.render = texts.map fun text => ⟨text, true⟩)
    (hfits : List.Forall₂ Piece.Fits
      (Piece.placeholders (Piece.ofPattern text.toList)) texts) :
    ∃ pattern, Pattern.parse text = .ok pattern ∧
      (ran notFound notAllowed steps).LeadsBack pattern
        ((ran notFound notAllowed steps).url name values).value.url texts := by
  have horder := ran_inOrder notFound notAllowed steps
  generalize ran notFound notAllowed steps = r at *
  obtain ⟨routes, hkeeps⟩ := horder.keeps
  obtain ⟨pattern, hparse, htext, route, hroute, hpath⟩ := hkeeps.exists_named hname
  have hurl := url_eq horder.drafts hname hvalues
  have hmade := Pattern.made hparse
  have hhead : pattern.text.toList.head? = some '/' := by
    obtain ⟨rest, hrest⟩ := Pattern.slash_of_parse hparse
    rw [hrest, List.head?_cons]
  rw [htext] at hmade hhead
  have hcaptured :
      Text.captures? pattern.path (r.url name values).value.url.toList = some texts := by
    rw [hurl, String.toList_ofList]
    exact hmade.captures?_fill hfits
  have hne : (r.url name values).value.url ≠ "" := by
    intro hempty
    have hnil := hmade.fill_head hhead texts
    rw [← String.toList_ofList (l := Piece.fill _ _), ← hurl, hempty] at hnil
    cases hnil
  have hmatch : Text.captures? route.path (r.url name values).value.url.toList = some texts := by
    rw [hpath, hcaptured]
  refine ⟨pattern, hparse, hcaptured, ?served, routes, route, hkeeps.table, hroute, hpath,
    fun hfirst method handler hown params => ?found⟩
  case served =>
    refine hkeeps.serves hroute ?_
    rw [hmatch]
    exact Option.some_ne_none _
  case found => exact hkeeps.find_own hroute hmatch hne (by rwa [hpath]) hown params

/-- A value may have marks in it, and the wildcard's may be empty. -/
theorem url_leadsBack_marks : ∃ pattern, Pattern.parse "/u/:id/*rest" = .ok pattern ∧
    (ran 404 405 [.add "u" "GET" "/u/:id/*rest" 1]).LeadsBack pattern
      ((ran 404 405 [.add "u" "GET" "/u/:id/*rest" 1]).url "u" [.text "a:*b", .text ""]).value.url
      [['a', ':', '*', 'b'], []] := by
  have hplaceholders : Piece.placeholders (Piece.ofPattern "/u/:id/*rest".toList) =
      [":id".toList, "*rest".toList] := by decide +kernel
  refine url_leadsBack 404 405 _ (by decide +kernel) rfl ?_
  rw [hplaceholders]
  exact .cons (by unfold Piece.Fits; decide) (.cons (by unfold Piece.Fits; decide) .nil)

end Router

end Routing

import Routing.Proofs.Pattern.Ranges
import Routing.Proofs.Router.Session

/-! What URLs are built.

The URL of a name is the name's pattern with the placeholders replaced by the values
(`Url.filled?`). It is written on a draft that others were written on, and none of these shows,
whether they were written to the end or not (`Router.urls_filled`). -/
namespace Routing
open Trie
variable {H : Type}

namespace Piece

/-- Texts without a placeholder do not show. -/
theorem fill_take (pieces : List Piece) (texts : List (List Char)) :
    fill pieces (texts.take (placeholders pieces).length) = fill pieces texts := by
  fun_induction fill pieces texts with
  | case1 => rfl
  | case2 text rest texts ih => rw [placeholders_literal, fill, ih]
  | case3 text rest => rw [List.take_nil, fill]
  | case4 own rest text texts ih =>
    rw [placeholders_placeholder, List.length_cons, List.take_succ_cons, fill, ih]

end Piece

namespace Url
open Piece

/-- The URL of a pattern, with a value in the place of each placeholder as far as there are any. It
is empty without a pattern, and when one of these values fails. -/
def filled? (values : List Value) : Option String → Option String
  | none => some ""
  | some pattern =>
    let ranges := ranges 0 (ofPattern pattern.toList)
    let needed := (values.take ranges.length).map Value.render
    if needed.all (·.complete) then
      (Text.replace? pattern.toList 0 ranges (needed.map (·.text))).map String.ofList
    else some ""

/-- Writing stops at a value that fails, if it gets to one. -/
theorem writePieces_complete (draft : Draft) (pieces : List Piece) (values : List Value) :
    (writePieces draft pieces values).complete =
      (values.take (placeholders pieces).length).all (·.render.complete) := by
  fun_induction writePieces draft pieces values with
  | case1 => rfl
  | case2 draft text rest values ih => rw [ih, placeholders_literal]
  | case3 draft text rest ih => rw [ih, List.take_nil, List.take_nil]
  | case4 draft text rest value values written hwritten ih =>
    rw [ih, placeholders_placeholder, List.length_cons, List.take_succ_cons, List.all_cons,
      show value.render.complete = true from hwritten, Bool.true_and]
  | case5 draft text rest value values written hwritten =>
    rw [placeholders_placeholder, List.length_cons, List.take_succ_cons, List.all_cons,
      show value.render.complete = false from Bool.eq_false_iff.mpr hwritten, Bool.false_and]

/-- What is written of a pattern on a clean draft is the URL, or it breaks off and there is none. -/
theorem expand_filled (pattern : String) (values : List Value) :
    filled? values (some pattern) = some (if (expand [] pattern values).complete then
      String.ofList (expand [] pattern values).text else "") := by
  have hcomplete := writePieces_complete [] (ofPattern pattern.toList) values
  have hreplaced := replace?_ranges [] [] (ofPattern pattern.toList)
    ((values.map (·.render.text)).take (placeholders (ofPattern pattern.toList)).length)
  rw [fill_take, List.nil_append, List.nil_append, (ofPattern_spec _).1, ← List.map_take]
    at hreplaced
  simp only [filled?, length_ranges]
  generalize hneeded : values.take (placeholders (ofPattern pattern.toList)).length = needed at *
  have hall : (needed.map Value.render).all (·.complete) = (expand [] pattern values).complete := by
    rw [List.all_map, expand_eq, hcomplete]
    rfl
  rw [hall]
  split
  · next hwhole =>
    rw [expand_eq, hcomplete, List.all_eq_true, ← hneeded] at hwhole
    rw [expand_eq, writePieces_eq [] hwhole, List.map_map, List.nil_append]
    exact congrArg (Option.map String.ofList) hreplaced
  · rfl

namespace Drafts

/-- What holds of the drafts at all times. -/
structure Clean (d : Drafts) : Prop where
  wiped : d.Wiped
  few : d.pile.length ≤ capacity

theorem empty_clean : empty.Clean := ⟨empty_wiped, Nat.zero_le _⟩

theorem Clean.putBack {d : Drafts} (h : d.Clean) (used : Draft) :
    (d.take.2.putBack used).Clean := by
  refine ⟨h.wiped.take.2.putBack used, ?_⟩
  have hfew := h.few
  obtain ⟨pile⟩ := d
  cases pile with
  | nil => exact (by decide : 1 ≤ capacity)
  | cons draft pile =>
    unfold Drafts.putBack
    split
    · next hroom => exact hroom
    · exact Nat.le_of_lt hfew

end Drafts

end Url

namespace Router

/-- A URL is its pattern filled in. -/
theorem url_filled {r : Router H} (h : r.drafts.Wiped) (name : String) (values : List Url.Value) :
    Url.filled? values (r.routePath? name) = some (r.url name values).value.url := by
  cases hname : r.routePath? name with
  | none =>
    rw [url, hname]
    rfl
  | some pattern => rw [Url.expand_filled, url_named h hname]

/-- Nothing that is done with a router leaves its drafts other than clean. -/
theorem InOrder.step_drafts {notFound notAllowed : H} {r : Router H}
    (h : r.InOrder notFound notAllowed) (hclean : r.drafts.Clean) (s : Step H) :
    (r.step s).value.2.drafts.Clean := by
  obtain ⟨routes, hkeeps⟩ := h.keeps
  cases s with
  | add name method path handler => rwa [step_add, hkeeps.call_drafts]
  | remove name method path => rwa [step_remove, hkeeps.call_drafts]
  | url name values =>
    obtain ⟨drafts, hrouter, hdrafts⟩ := url_router r name values
    show (r.url name values).value.router.drafts.Clean
    rw [hrouter]
    rcases hdrafts with rfl | ⟨used, rfl⟩
    · exact hclean
    · exact hclean.putBack used
  | find | list | routePath | outline => exact hclean

theorem InOrder.steps_drafts {notFound notAllowed : H} {r : Router H}
    (h : r.InOrder notFound notAllowed) (hclean : r.drafts.Clean) (steps : List (Step H)) :
    (r.steps steps).value.2.drafts.Clean := by
  induction steps generalizing r with
  | nil => exact hclean
  | cons s rest ih => exact ih (h.step s) (h.step_drafts hclean s)

/-- URLs one after another: each is what it would be as the first. -/
theorem InOrder.urls {notFound notAllowed : H} {r : Router H} (h : r.InOrder notFound notAllowed)
    (calls : List (String × List Url.Value)) : ∃ urls : List String,
      calls.map (fun call => Url.filled? call.2 (r.routePath? call.1)) = urls.map some ∧
      (r.steps (calls.map fun call => .url call.1 call.2)).value.1 = urls.map .built := by
  induction calls generalizing r with
  | nil => exact ⟨[], rfl, rfl⟩
  | cons call rest ih =>
    obtain ⟨urls, hfilled, hreplies⟩ := ih (h.url call.1 call.2)
    obtain ⟨drafts, hrouter, -⟩ := url_router r call.1 call.2
    have hfirst := url_filled h.drafts call.1 call.2
    refine ⟨(r.url call.1 call.2).value.url :: urls, ?_, ?_⟩
    · rw [List.map_cons, List.map_cons, hfirst, ← hfilled, hrouter]
      rfl
    · exact congrArg (_ :: ·) hreplies

/-- Whatever was done with a router before, the URLs that it builds one after another are the
patterns of their names with the values filled in, and the drafts that they were written on are
clean. -/
theorem urls_filled (notFound notAllowed : H) (steps : List (Step H))
    (calls : List (String × List Url.Value)) :
    ∃ (urls : List String) (left : Router H), ((ran notFound notAllowed steps).steps
        (calls.map fun call => .url call.1 call.2)).value = (urls.map .built, left) ∧
      calls.map (fun call => Url.filled? call.2
        ((ran notFound notAllowed steps).routePath? call.1)) = urls.map some ∧
      (∀ draft ∈ left.drafts.pile, draft = []) ∧ left.drafts.pile.length ≤ 16 := by
  have horder := ran_inOrder notFound notAllowed steps
  have hclean : (ran notFound notAllowed steps).drafts.Clean :=
    (new_inOrder notFound notAllowed).steps_drafts Url.Drafts.empty_clean steps
  obtain ⟨urls, hfilled, hreplies⟩ := horder.urls calls
  have hleft := horder.steps_drafts hclean (calls.map fun call => .url call.1 call.2)
  exact ⟨urls, _, Prod.ext hreplies rfl, hfilled, hleft.wiped, hleft.few⟩

/-- What a value has written before it fails is lost, and a value too many may fail. -/
example : (((after 404 405 [.add "post" "GET" "/a/:x" 1]).url "post"
    [.failing "7"]).value.router.url "post" [.text "8", .failing "9"]).value.url = "/a/8" := by
  decide +kernel

end Router

end Routing

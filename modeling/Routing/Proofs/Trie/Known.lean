import Routing.Proofs.Trie.Ways

/-! Paths that the trie has already.

A path that is a node's is put in at that node, and no other is touched on the way
(`Holds.insert?_known`). Where a path has a mark a node ends in front of it and another
behind it (`Tree.ends_at_mark`), and a pattern is cut at its marks, so with a pattern's path the
trie has the paths up to its cuts too: to put it in again is to write to one node
(`Holds.plant?_known`). -/
namespace Routing
open Text

/-! ### Nodes -/

namespace Trie
variable {H : Type}

section known
variable {t : Trie H} {n : Tree H} (h : t.Holds n) (hsound : ∀ c ∈ n.all, c.Sound) {c : Cell H}
  (hc : c ∈ n.all) (kind : Kind)
include h hsound hc

/-- The path of a node is put in at that node. -/
theorem Holds.insert?_known (r : Option (Registration H)) : t.insert? kind c.path r =
    some (c.slot, t.set c.slot { c.node with toContent := c.content.register r }) := by
  have htext : c.content.text ≠ [] := (hsound c hc).content.ne_nil
  have hdown := h.stored.insertFrom?_below hsound hc kind r (List.nil_append _).symm []
  have hend := insertFrom?_through (h.stored c hc) htext kind r []
  rw [List.append_nil] at hdown
  rw [if_pos rfl] at hend
  rw [insert?, ← show n.slot = root from h.rooted, hdown]
  refine hend.trans (Option.bind_eq_some_iff.mpr ⟨_, change?_eq (h.stored c hc) _, rfl⟩)

theorem Holds.insert?_none : t.insert? kind c.path none = some (c.slot, t) := by
  rw [h.insert?_known hsound hc]
  exact congrArg (fun t' => some (c.slot, t')) (set_self (h.stored c hc))

end known

end Trie

/-! ### Boundaries at marks -/

theorem Text.not_literal_mark {mark : Char} (h : ¬ Literal [mark]) (front rest : List Char) :
    ¬ Literal (front ++ mark :: rest) := fun hliteral =>
  h (literal_append.mp (show Literal ([mark] ++ rest) from (literal_append.mp hliteral).2)).1

/-- A node with a mark in its text has no other text. -/
theorem Kind.Fits.eq_of_mark {kind : Kind} {text front rest : List Char} {mark : Char}
    (h : kind.Fits text) (hmark : ¬ Literal [mark]) (htext : text = front ++ mark :: rest) :
    front = [] ∧ rest = [] := by
  have hone : text.length = 1 := by
    cases kind with
    | static => exact (not_literal_mark hmark front rest (htext ▸ h)).elim
    | param => exact congrArg List.length (show text = [':'] from h)
    | wildcard => exact congrArg List.length (show text = ['*'] from h)
  rw [htext, List.length_append, List.length_cons] at hone
  exact ⟨List.length_eq_zero_iff.mp (by omega), List.length_eq_zero_iff.mp (by omega)⟩

namespace Trie
variable {H : Type}

/-- A mark in a path comes behind the text that the path begins with, or is in that text. -/
theorem mark_behind_or_in {text tail front rest : List Char} {mark : Char}
    (h : text ++ tail = front ++ mark :: rest) :
    (∃ more, front = text ++ more) ∨ ∃ back, text = front ++ mark :: back := by
  rcases List.append_eq_append_iff.mp h with ⟨more, hfront, -⟩ | ⟨back, htext, hback⟩
  · exact .inl ⟨more, hfront⟩
  · cases back with
    | nil => exact .inl ⟨[], by rw [htext, List.append_nil, List.append_nil]⟩
    | cons c back => exact .inr ⟨back, by rw [htext, (List.cons.inj hback).1]⟩

/-- Where the path of a node has a mark, a node ends behind it, and one in front of it. -/
theorem Tree.ends_at_mark {n : Tree H} {above : List Char} {parent : Option Slot}
    (hsound : ∀ d ∈ n.cells above parent, d.Sound) {c : Cell H} (hc : c ∈ n.cells above parent)
    {front rest : List Char} {mark : Char} (hmark : ¬ Literal [mark])
    (hpath : c.path = above ++ front ++ mark :: rest) :
    (∃ d ∈ n.cells above parent, d.path = above ++ front ++ [mark]) ∧
      (front ≠ [] → ∃ d ∈ n.cells above parent, d.path = above ++ front) := by
  induction n using Tree.induction generalizing above parent front with
  | step slot content children ih =>
    have hfits : content.kind.Fits content.text := (hsound _ Tree.top_mem).content.fits
    obtain ⟨tail, htail⟩ := Tree.path_of_mem_cells hc
    have hsplit : content.text ++ tail = front ++ mark :: rest := by
      rw [hpath, List.append_assoc, List.append_assoc] at htail
      exact (List.append_cancel_left htail).symm
    rcases mark_behind_or_in hsplit with ⟨more, rfl⟩ | ⟨back, htext⟩
    · rcases mem_cells.mp hc with rfl | ⟨m, hm, hbelow⟩
      · have hlength := congrArg List.length hpath
        simp only [top_path, content_node, List.length_append, List.length_cons] at hlength
        omega
      · rw [← List.append_assoc] at hpath
        obtain ⟨⟨d, hd, hbehind⟩, hfront⟩ :=
          ih m hm (fun e he => hsound e (mem_cells_of_child hm he)) hbelow hpath
        rw [← List.append_assoc]
        refine ⟨⟨d, mem_cells_of_child hm hd, hbehind⟩, fun _ => ?_⟩
        by_cases hmore : more = []
        · exact ⟨_, top_mem, by rw [hmore, List.append_nil]; rfl⟩
        · obtain ⟨e, he, hpath⟩ := hfront hmore
          exact ⟨e, mem_cells_of_child hm he, hpath⟩
    · obtain ⟨rfl, rfl⟩ := hfits.eq_of_mark hmark htext
      refine ⟨⟨_, top_mem, ?_⟩, fun hne => (hne rfl).elim⟩
      rw [top_path, content_node, htext, List.append_nil]
      rfl

/-- A tree with the path of a pattern has those up to its cuts. -/
theorem Tree.exists_stop {n : Tree H} (hsound : ∀ c ∈ n.all, c.Sound) {stops : List Stop}
    {last : Stop} (hchain : Stop.Chain [] (stops ++ [last])) {c : Cell H} (hc : c ∈ n.all)
    (hpath : c.path = last.path) : ∀ stop ∈ stops, ∃ d ∈ n.all, d.path = stop.path := by
  intro stop hstop
  obtain ⟨front, mark, rest, hmark, hlast, hends⟩ := hchain.exists_mark stop hstop
  have hmarked : c.path = [] ++ front ++ mark :: rest := hpath.trans hlast
  obtain ⟨⟨d, hd, hbehind⟩, hfront⟩ := Tree.ends_at_mark hsound hc hmark hmarked
  rcases hends with hstop | ⟨hne, hstop⟩
  · exact ⟨d, hd, hbehind.trans hstop.symm⟩
  · obtain ⟨e, he, hpath⟩ := hfront hne
    exact ⟨e, he, hpath.trans hstop.symm⟩

/-! ### Patterns -/

theorem scaffold?_known {t : Trie H} {stops : List Stop}
    (h : ∀ stop ∈ stops, ∃ slot, t.insert? stop.kind stop.path none = some (slot, t)) :
    t.scaffold? stops = some t := by
  induction stops with
  | nil => rfl
  | cons stop rest ih =>
    obtain ⟨⟨slot, hstop⟩, hrest⟩ := List.forall_mem_cons.mp h
    rw [scaffold?_cons hstop]
    exact ih hrest

/-- A pattern whose path is a node's changes nothing at its cuts, and at the node what it
carries. -/
theorem Holds.plant?_known {t : Trie H} {n : Tree H} (h : t.Holds n) (hsound : ∀ c ∈ n.all, c.Sound)
    (hn : Formed n) {pattern : Pattern} (hstaged : pattern.Staged) {c : Cell H} (hc : c ∈ n.all)
    (hpath : c.path = pattern.path) :
    (∀ cut ∈ pattern.cuts, ∃ front back slot, cut? pattern.path cut.offset = some (front, back) ∧
      t.insert? cut.kind front none = some (slot, t)) ∧
      ∀ r, t.plant? pattern r =
        some (t.set c.slot { c.node with toContent := c.content.attach r }) := by
  have hscaffolds : ∀ stop ∈ pattern.scaffolds,
      ∃ slot, t.insert? stop.kind stop.path none = some (slot, t) := by
    intro stop hstop
    obtain ⟨d, hd, hsame⟩ := Tree.exists_stop hsound hstaged.chain hc hpath stop hstop
    exact ⟨d.slot, hsame ▸ h.insert?_none hsound hd stop.kind⟩
  refine ⟨fun cut hcut => ?_, fun r => ?_⟩
  · rw [hstaged.cuts] at hcut
    obtain ⟨stop, hstop, rfl⟩ := List.mem_map.mp hcut
    obtain ⟨back, hback⟩ := hstaged.chain.prefix_last stop hstop
    obtain ⟨slot, hinsert⟩ := hscaffolds stop hstop
    refine ⟨stop.path, back, slot, ?_, hinsert⟩
    rw [show pattern.path = stop.path ++ back from hback.symm]
    exact cut?_append stop.path back
  · rw [h.plant?_eq hn hstaged, scaffold?_known hscaffolds, ← hpath, Option.bind_some,
      h.insert?_known hsound hc]
    rfl

end Trie

end Routing

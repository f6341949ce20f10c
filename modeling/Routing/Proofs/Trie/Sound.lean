import Mathlib.Data.List.Nodup
import Routing.Proofs.Methods
import Routing.Proofs.Pattern
import Routing.Proofs.Trie.Tree

/-! What is true of every node of a trie.

A node is sound if its text is what its kind matches, its parent can tell it from its siblings,
and the route it carries belongs to its path (`Cell.Sound`). It is tight if it is there for a
reason: it ends a route, or leads on and could not be one with its only child (`Cell.Tight`).
Both are said of one cell at a time, so an edit has to be checked only where it was made.

In a tree of sound nodes a path tells where its node is: below a node there is at most one
child to go on with, the one labelled with the next character (`Tree.child_of_beneath`), and no
two nodes have the same path (`Tree.nodup_paths`). -/
namespace Routing

namespace Kind
open Text

/-- The texts of the nodes of a kind. -/
def Fits : Kind → List Char → Prop
  | .static, text => Literal text
  | .param, text => text = [':']
  | .wildcard, text => text = ['*']

/-- The children that a node of a kind may have. -/
def Admits : Kind → List Trie.Kid → Prop
  | .static, _ => True
  | .param, kids => ∀ k ∈ kids, k.kind = .static ∧ k.label = '/'
  | .wildcard, kids => kids = []

end Kind

/-- A parameter has one child at most. -/
theorem Kind.length_le_one {kids : List Trie.Kid} (h : Kind.param.Admits kids)
    (hlabels : (kids.map (·.label)).Nodup) : kids.length ≤ 1 := by
  match kids, h, hlabels with
  | [], _, _ => exact Nat.zero_le _
  | [_], _, _ => exact Nat.le_refl _
  | a :: b :: rest, h, hlabels =>
    have ha := (h a (by simp)).2
    have hb := (h b (by simp)).2
    rw [List.map_cons, List.map_cons, List.nodup_cons, ha, hb] at hlabels
    exact (hlabels.1 (List.mem_cons_self ..)).elim

namespace Trie
open Text
variable {H : Type}

/-- A pattern and its parameters belong to a path. -/
structure Names (pattern : String) (params : List String) (path : List Char) : Prop where
  ne_empty : pattern ≠ ""
  length : params.length = marks path
  parse : ∃ p, Pattern.parse pattern = .ok p ∧ p.path = path

/-- What is true of the content of a node with this path. -/
structure Content.Sound (c : Content H) (path : List Char) : Prop where
  ne_nil : c.text ≠ []
  label : c.label = labelOf c.text
  fits : c.kind.Fits c.text
  methods : c.methods.Ordered
  plain : c.hasRoute = false → c.name = "" ∧ c.pattern = "" ∧ c.params = []
  route : c.hasRoute = true → Names c.pattern c.params path

namespace Cell

structure Sound (c : Cell H) : Prop where
  content : c.content.Sound c.path
  root : c.parent = none → c.content.kind = .static ∧ c.content.label = '/'
  labels : (c.kids.map (·.label)).Nodup
  kids : c.content.kind.Admits c.kids

def Tight (c : Cell H) : Prop :=
  c.content.hasRoute = true ∨
    c.kids ≠ [] ∧ (c.content.kind = .static → c.kids.map (·.kind) ≠ [.static])

end Cell

theorem Cell.Sound.path_ne_nil {c : Cell H} (h : c.Sound) : c.path ≠ [] := fun heq =>
  h.content.ne_nil (List.append_eq_nil_iff.mp heq).2

/-- A static node is told by the end of its path. -/
theorem Cell.Sound.static_iff {c : Cell H} (h : c.Sound) :
    c.content.kind = .static ↔ ∃ x, c.path.getLast? = some x ∧ Literal [x] := by
  have hlast := getLast?_append h.content.ne_nil c.above
  have hfits := h.content.fits
  rw [Cell.path, hlast]
  cases hkind : c.content.kind with
  | static =>
    rw [hkind] at hfits
    exact iff_of_true rfl ⟨_, rfl, literal_getLast hfits h.content.ne_nil⟩
  | param =>
    rw [hkind] at hfits
    refine iff_of_false (by decide) ?_
    rintro ⟨x, hx, hliteral⟩
    simp only [show c.content.text = [':'] from hfits, List.getLast_singleton,
      Option.some.injEq] at hx
    exact (literal_singleton.mp hliteral).1 hx.symm
  | wildcard =>
    rw [hkind] at hfits
    refine iff_of_false (by decide) ?_
    rintro ⟨x, hx, hliteral⟩
    simp only [show c.content.text = ['*'] from hfits, List.getLast_singleton,
      Option.some.injEq] at hx
    exact (literal_singleton.mp hliteral).2 hx.symm

theorem Cell.Sound.wildcard_getLast {c : Cell H} (h : c.Sound)
    (hkind : c.content.kind = .wildcard) :
    c.path.getLast? = some '*' := by
  have hfits := h.content.fits
  rw [hkind] at hfits
  rw [Cell.path, show c.content.text = ['*'] from hfits, List.getLast?_concat]

/-! ### Contents -/

theorem labelOf_append {front : List Char} (h : front ≠ []) (back : List Char) :
    labelOf (front ++ back) = labelOf front := by
  rw [labelOf, labelOf, List.head?_append_of_ne_nil _ h]

theorem labelOf_cons (c : Char) (text : List Char) : labelOf (c :: text) = c := rfl

namespace Content

theorem Sound.text_eq {c : Content H} {path : List Char} (h : c.Sound path) :
    ∃ text, c.text = c.label :: text := by
  obtain ⟨x, text, htext⟩ := List.exists_cons_of_ne_nil h.ne_nil
  have hlabel := h.label
  rw [htext] at hlabel
  exact ⟨text, by rw [htext, hlabel]; rfl⟩

theorem hasRoute_attach (c : Content H) (r : Registration H) : (c.attach r).hasRoute = true := by
  rw [hasRoute, attach, Methods.isEmpty_insert]
  rfl

theorem Sound.attach {c : Content H} {path : List Char} (h : c.Sound path) {r : Registration H}
    (hr : Names r.pattern r.params path) : (c.attach r).Sound path where
  ne_nil := h.ne_nil
  label := h.label
  fits := h.fits
  methods := h.methods.insert ..
  plain := by
    rw [hasRoute_attach]
    intro hroute
    cases hroute
  route := by
    intro
    cases hroute : c.hasRoute with
    | false =>
      obtain ⟨hname, hpattern, hparams⟩ := h.plain hroute
      simp only [Content.attach, hpattern, hparams, if_true, List.isEmpty_nil]
      exact hr
    | true =>
      have hold := h.route hroute
      refine ⟨?_, ?_, ?_⟩
      · simp only [Content.attach, hold.ne_empty, if_false]
        exact hold.ne_empty
      · simp only [Content.attach]
        split
        · exact hr.length
        · exact hold.length
      · simp only [Content.attach, hold.ne_empty, if_false]
        exact hold.parse

theorem Sound.register {c : Content H} {path : List Char} (h : c.Sound path)
    {r : Option (Registration H)} (hr : ∀ reg ∈ r, Names reg.pattern reg.params path) :
    (c.register r).Sound path := by
  cases r with
  | none => exact h
  | some reg => exact h.attach (hr reg rfl)

theorem hasRoute_plain (kind : Kind) (text : List Char) :
    (plain kind text : Content H).hasRoute = false := rfl

theorem plain_sound {kind : Kind} {text : List Char} (hne : text ≠ []) (hfits : kind.Fits text)
    (path : List Char) : (plain kind text : Content H).Sound path where
  ne_nil := hne
  label := rfl
  fits := hfits
  methods := Methods.empty_ordered
  plain := fun _ => ⟨rfl, rfl, rfl⟩
  route := by
    rw [hasRoute_plain]
    intro hroute
    cases hroute

/-- The front of a split node. -/
theorem Sound.upper {c : Content H} {path front back : List Char} (h : c.Sound path)
    (hkind : c.kind = .static) (htext : c.text = front ++ back) (hfront : front ≠ [])
    (path' : List Char) : (c.upper front).Sound path' where
  ne_nil := hfront
  label := by
    show c.label = labelOf front
    rw [h.label, htext, labelOf_append hfront]
  fits := by
    have hfits := h.fits
    rw [hkind, htext] at hfits
    exact (literal_append.mp hfits).1
  methods := Methods.empty_ordered
  plain := fun _ => ⟨rfl, rfl, rfl⟩
  route := by
    intro hroute
    cases hroute

/-- The back of a split node is at the path of the whole. -/
theorem Sound.lower {c : Content H} {path front back : List Char} (h : c.Sound path)
    (hkind : c.kind = .static) (htext : c.text = front ++ back) (hback : back ≠ []) :
    (c.lower back).Sound path where
  ne_nil := hback
  label := rfl
  fits := by
    have hfits := h.fits
    rw [hkind, htext] at hfits
    show c.kind.Fits back
    rw [hkind]
    exact (literal_append.mp hfits).2
  methods := h.methods
  plain := h.plain
  route := h.route

/-- A static node and its static child as one. -/
theorem Sound.absorb {c d : Content H} {path path' : List Char} (h : c.Sound path)
    (hkind : c.kind = .static) (hd : d.Sound path') (hkind' : d.kind = .static) :
    (c.absorb d).Sound path' where
  ne_nil := List.append_ne_nil_of_left_ne_nil h.ne_nil _
  label := by
    show c.label = labelOf (c.text ++ d.text)
    rw [h.label, labelOf_append h.ne_nil]
  fits := by
    have hfits := h.fits
    have hfits' := hd.fits
    rw [hkind] at hfits
    rw [hkind'] at hfits'
    show c.kind.Fits (c.text ++ d.text)
    rw [hkind]
    exact literal_append.mpr ⟨hfits, hfits'⟩
  methods := hd.methods
  plain := hd.plain
  route := hd.route

/-- A node without its route has nothing of it left. -/
theorem Sound.withoutRoute {c : Content H} {path : List Char} (h : c.Sound path) :
    c.withoutRoute.Sound path where
  ne_nil := h.ne_nil
  label := h.label
  fits := h.fits
  methods := Methods.empty_ordered
  plain := fun _ => ⟨rfl, rfl, rfl⟩
  route := by
    intro hroute
    cases hroute

end Content

/-! ### Paths -/

namespace Tree

/-- The path of a node begins with the path of every node above it. -/
theorem path_of_mem_cells {n : Tree H} {above : List Char} {parent : Option Slot} {c : Cell H}
    (h : c ∈ n.cells above parent) : ∃ rest, c.path = above ++ n.content.text ++ rest := by
  induction n using Tree.induction generalizing above parent with
  | step slot content children ih =>
    rcases mem_cells.mp h with rfl | ⟨m, hm, hc⟩
    · exact ⟨[], (List.append_nil _).symm⟩
    · obtain ⟨rest, hrest⟩ := ih m hm hc
      exact ⟨m.content.text ++ rest, by rw [hrest, List.append_assoc]⟩

theorem above_of_mem_cells {n : Tree H} {above : List Char} {parent : Option Slot} {c : Cell H}
    (h : c ∈ n.cells above parent) : ∃ rest, c.above = above ++ rest := by
  induction n using Tree.induction generalizing above parent with
  | step slot content children ih =>
    rcases mem_cells.mp h with rfl | ⟨m, hm, hc⟩
    · exact ⟨[], (List.append_nil _).symm⟩
    · obtain ⟨rest, hrest⟩ := ih m hm hc
      exact ⟨content.text ++ rest, by rw [hrest, List.append_assoc]; rfl⟩

/-- Below a node a path goes on, with a child that its next character labels. -/
theorem child_of_beneath {n m : Tree H} {above : List Char} {parent : Option Slot} {c : Cell H}
    (hsound : ∀ d ∈ n.cells above parent, d.Sound) (hm : m ∈ n.children)
    (h : c ∈ m.cells (above ++ n.content.text) (some n.slot)) :
    ∃ rest, c.path = above ++ n.content.text ++ m.content.label :: rest := by
  obtain ⟨rest, hrest⟩ := path_of_mem_cells h
  have hself := hsound _ (mem_cells_of_child hm top_mem)
  obtain ⟨text, htext⟩ := hself.content.text_eq
  refine ⟨text ++ rest, hrest.trans ?_⟩
  rw [show m.content.text = _ from htext, List.append_assoc]
  rfl

/-- Children have different labels. -/
theorem eq_of_label_eq {n : Tree H} {above : List Char} {parent : Option Slot}
    (hsound : (n.top above parent).Sound) {m m' : Tree H} (hm : m ∈ n.children)
    (hm' : m' ∈ n.children) (h : m.content.label = m'.content.label) : m = m' := by
  have hlabels := hsound.labels
  rw [top_kids, List.map_map] at hlabels
  exact List.inj_on_of_nodup_map hlabels hm hm' h

theorem nodup_paths {n : Tree H} {above : List Char} {parent : Option Slot}
    (hsound : ∀ c ∈ n.cells above parent, c.Sound) :
    ((n.cells above parent).map Cell.path).Nodup := by
  induction n using Tree.induction generalizing above parent with
  | step slot content children ih =>
    have htop := hsound _ top_mem
    have hbelow {m : Tree H} (hm : m ∈ children) {c : Cell H}
        (hc : c ∈ m.cells (above ++ content.text) (some slot)) :
        ∃ rest, c.path = above ++ content.text ++ m.content.label :: rest :=
      child_of_beneath hsound (m := m) hm hc
    rw [cells_eq, List.map_cons, List.nodup_cons, beneath, List.map_flatMap]
    refine ⟨fun h => ?_, List.nodup_flatMap.mpr ⟨fun m hm => ih m hm fun c hc => ?_, ?_⟩⟩
    · obtain ⟨m, hm, h⟩ := List.mem_flatMap.mp h
      obtain ⟨c, hc, heq⟩ := List.mem_map.mp h
      obtain ⟨rest, hrest⟩ := hbelow hm hc
      have hlength := congrArg List.length (hrest.symm.trans heq)
      simp only [top, Cell.path, List.length_append, List.length_cons, Tree.content] at hlength
      omega
    · exact hsound c (mem_cells_of_child hm hc)
    · have hlabels := htop.labels
      rw [top_kids, List.map_map] at hlabels
      refine (List.pairwise_map.mp hlabels).imp_of_mem fun {m m'} hm hm' hne => ?_
      intro path hpath hpath'
      obtain ⟨c, hc, rfl⟩ := List.mem_map.mp hpath
      obtain ⟨c', hc', heq⟩ := List.mem_map.mp hpath'
      obtain ⟨rest, hrest⟩ := hbelow hm hc
      obtain ⟨rest', hrest'⟩ := hbelow hm' hc'
      rw [hrest, hrest', List.append_cancel_left_eq] at heq
      exact hne (List.cons.inj heq).1.symm

/-- Two nodes below a node are below the same child if their paths go on with the same
character. -/
theorem eq_of_path_eq {n m m' : Tree H} {above : List Char} {parent : Option Slot}
    (hsound : ∀ d ∈ n.cells above parent, d.Sound) (hm : m ∈ n.children) (hm' : m' ∈ n.children)
    {c c' : Cell H} (hc : c ∈ m.cells (above ++ n.content.text) (some n.slot))
    (hc' : c' ∈ m'.cells (above ++ n.content.text) (some n.slot)) {rest : List Char}
    (h : c.path ++ rest = c'.path) : m = m' := by
  obtain ⟨tail, htail⟩ := child_of_beneath hsound hm hc
  obtain ⟨tail', htail'⟩ := child_of_beneath hsound hm' hc'
  rw [htail, htail', List.append_assoc, List.append_cancel_left_eq] at h
  exact eq_of_label_eq (hsound _ top_mem) hm hm' (List.cons.inj h).1

/-- A path that goes on behind a node goes on with one of its children. -/
theorem exists_kid {n : Tree H} {above : List Char} {parent : Option Slot}
    (hsound : ∀ d ∈ n.cells above parent, d.Sound) {c d : Cell H}
    (hc : c ∈ n.cells above parent) (hd : d ∈ n.cells above parent) {x : Char} {rest : List Char}
    (h : c.path ++ x :: rest = d.path) : ∃ k ∈ c.kids, k.label = x := by
  induction n using Tree.induction generalizing above parent with
  | step slot content children ih =>
    rcases mem_cells.mp hc with rfl | ⟨m, hm, hcm⟩
    · rcases mem_cells.mp hd with rfl | ⟨m, hm, hdm⟩
      · exact absurd (congrArg List.length h) (by simp)
      · obtain ⟨tail, htail⟩ := child_of_beneath hsound hm hdm
        rw [htail] at h
        exact ⟨m.kid, List.mem_map_of_mem hm, (List.cons.inj (List.append_cancel_left h)).1.symm⟩
    · rcases mem_cells.mp hd with rfl | ⟨m', hm', hdm⟩
      · obtain ⟨tail, htail⟩ := child_of_beneath hsound hm hcm
        have hlength := congrArg List.length h
        rw [htail] at hlength
        simp only [top, Cell.path, List.length_append, List.length_cons] at hlength
        omega
      · obtain rfl := eq_of_path_eq hsound hm hm' hcm hdm h
        exact ih m hm (fun e he => hsound e (mem_cells_of_child hm he)) hcm hdm

/-- A path that goes into a node's text comes to its end. -/
theorem path_through {n : Tree H} {above : List Char} {parent : Option Slot}
    (hsound : ∀ d ∈ n.cells above parent, d.Sound) {c d : Cell H}
    (hc : c ∈ n.cells above parent) (hd : d ∈ n.cells above parent) {rest : List Char}
    (h : c.above ++ c.content.label :: rest = d.path) : ∃ tail, d.path = c.path ++ tail := by
  induction n using Tree.induction generalizing above parent with
  | step slot content children ih =>
    rcases mem_cells.mp hc with rfl | ⟨m, hm, hcm⟩
    · exact path_of_mem_cells hd
    · obtain ⟨tail, htail⟩ : ∃ tail, c.above ++ c.content.label :: rest =
          above ++ content.text ++ m.content.label :: tail := by
        rcases mem_cells.mp hcm with rfl | ⟨m', hm', hcm'⟩
        · exact ⟨rest, rfl⟩
        · obtain ⟨tail, htail⟩ := above_of_mem_cells hcm'
          have hself := hsound _ (mem_cells_of_child hm top_mem)
          obtain ⟨text, htext⟩ := hself.content.text_eq
          refine ⟨text ++ tail ++ c.content.label :: rest, ?_⟩
          rw [htail, show m.content.text = _ from htext]
          simp only [List.append_assoc, List.cons_append]
          rfl
      rcases mem_cells.mp hd with rfl | ⟨m', hm', hdm⟩
      · have hlength := congrArg List.length (htail.symm.trans h)
        simp only [top, Cell.path, List.length_append, List.length_cons, Tree.content] at hlength
        omega
      · obtain ⟨tail', htail'⟩ := child_of_beneath hsound hm' hdm
        rw [htail, htail'] at h
        obtain rfl := eq_of_label_eq (hsound _ top_mem) hm hm'
          (List.cons.inj (List.append_cancel_left h)).1
        exact ih m hm (fun e he => hsound e (mem_cells_of_child hm he)) hcm hdm

/-- A node sees of a child what the child is. -/
theorem cell_of_kid {n : Tree H} {above : List Char} {parent : Option Slot} {c : Cell H}
    (hc : c ∈ n.cells above parent) {k : Kid} (hk : k ∈ c.kids) :
    ∃ d ∈ n.cells above parent, ⟨d.slot, d.content.kind, d.content.label⟩ = k ∧
      d.above = c.path ∧ d.parent = some c.slot := by
  induction n using Tree.induction generalizing above parent with
  | step slot content children ih =>
    rcases mem_cells.mp hc with rfl | ⟨m, hm, hcm⟩
    · obtain ⟨m, hm, rfl⟩ := List.mem_map.mp hk
      exact ⟨_, mem_cells_of_child hm top_mem, rfl, rfl, rfl⟩
    · obtain ⟨d, hd, heq⟩ := ih m hm hcm
      exact ⟨d, mem_cells_of_child hm hd, heq⟩

end Tree

end Trie

end Routing

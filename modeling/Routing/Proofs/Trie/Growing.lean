import Routing.Proofs.Trie.Insert
import Routing.Proofs.Trie.Routes

/-! Growing a path, stretch by stretch.

A pattern goes into the trie by the path up to each cut, and then by the whole path with its
route. In between the trie is not tight: the node at the last cut may lead nowhere yet. That is
all that is wrong with it (`Growing`), and the next stretch puts it right (`Planted.growing`).
The end of the path carries a route, so nothing is left to put right there
(`Planted.tight`). -/
namespace Routing.Trie
open Text
variable {H : Type}

/-! ### An edit in one place -/

namespace Context

/-- What holds of every node still does if it holds of the nodes of an edited part. -/
theorem forall_exchange {P : Cell H → Prop} {C : Context H} {n m : Tree H} (hkid : m.kid = n.kid)
    (h : ∀ c ∈ (C.plug n).all, P c) (hm : ∀ c ∈ m.cells C.above C.parent, P c) :
    ∀ c ∈ (C.plug m).all, P c := by
  intro c hc
  rw [cells_plug, List.mem_append, List.mem_append, hkid] at hc
  rcases hc with (hc | hc) | hc
  · exact h c (mem_plug.mpr (.inl hc))
  · exact hm c hc
  · exact h c (mem_plug.mpr (.inr (.inr (.inr hc))))

end Context

/-- What holds of the nodes of a part holds of them below another parent, if the path there is
the same. -/
theorem Tree.forall_cells {P : Cell H → Prop} {n : Tree H} {above above' : List Char}
    {parent parent' : Option Slot} (habove : above' = above) (h : ∀ c ∈ n.cells above parent, P c)
    (htop : P (n.top above parent) → P (n.top above parent')) :
    ∀ c ∈ n.cells above' parent', P c := by
  subst habove
  rw [cells_eq, List.forall_mem_cons] at h ⊢
  exact ⟨htop h.1, h.2⟩

theorem Cell.Tight.below {n : Tree H} {above : List Char} {parent : Option Slot} {parent' : Slot}
    (h : (n.top above parent).Tight) : (n.top above (some parent')).Tight := h

theorem Cell.Sound.below {n : Tree H} {above : List Char} {parent : Option Slot} {parent' : Slot}
    (h : (n.top above parent).Sound) : (n.top above (some parent')).Sound where
  content := h.content
  root := by
    intro hnone
    cases hnone
  labels := h.labels
  kids := h.kids

section edits
variable {C : Context H} {slot lower leaf : Slot} {c d : Content H} {children : List (Tree H)}
  {front back : List Char}

/-! ### Soundness -/

theorem sound_setContent (h : ∀ e ∈ (C.plug (.node slot c children)).all, e.Sound) {c' : Content H}
    (hc' : c'.Sound (C.above ++ c.text)) (htext : c'.text = c.text) (hlabel : c'.label = c.label)
    (hkind : c'.kind = c.kind) :
    ∀ e ∈ (C.plug (.node slot c' children)).all, e.Sound := by
  have hpart := fun e he => h e (Context.mem_of_part he)
  have htop := hpart _ Tree.top_mem
  refine Context.forall_exchange ?_ h fun e he => ?_
  · simp [hlabel, hkind]
  · rcases Tree.mem_cells.mp he with rfl | ⟨m, hm, hem⟩
    · refine ⟨?_, fun hroot => ?_, htop.labels, ?_⟩
      · show c'.Sound (C.above ++ c'.text)
        rw [htext]
        exact hc'
      · show c'.kind = _ ∧ c'.label = _
        rw [hkind, hlabel]
        exact htop.root hroot
      · show c'.kind.Admits _
        rw [hkind]
        exact htop.kids
    · refine hpart e (Tree.mem_cells_of_child hm ?_)
      rw [Tree.content_node, htext] at hem
      exact hem

theorem sound_addLeaf (h : ∀ e ∈ (C.plug (.node slot c children)).all, e.Sound)
    (hd : d.Sound (C.above ++ c.text ++ d.text))
    (hlabel : ∀ m ∈ children, m.content.label ≠ d.label)
    (hkids : c.kind.Admits ((children ++ [Tree.node leaf d []]).map Tree.kid)) :
    ∀ e ∈ (C.plug (.node slot c (children ++ [.node leaf d []]))).all, e.Sound := by
  have hpart := fun e he => h e (Context.mem_of_part he)
  have htop := hpart _ Tree.top_mem
  refine Context.forall_exchange (n := .node slot c children) rfl h fun e he => ?_
  rcases Tree.mem_cells.mp he with rfl | ⟨m, hm, hem⟩
  · refine ⟨htop.content, htop.root, ?_, hkids⟩
    show (((children ++ [Tree.node leaf d []]).map Tree.kid).map (·.label)).Nodup
    have hlabels : ((children.map Tree.kid).map (·.label)).Nodup := htop.labels
    rw [List.map_append, List.map_append, List.nodup_append]
    refine ⟨hlabels, List.nodup_singleton _, fun x hx y hy => ?_⟩
    rw [List.map_map] at hx
    obtain ⟨m, hm, rfl⟩ := List.mem_map.mp hx
    obtain rfl : y = d.label := List.mem_singleton.mp hy
    exact hlabel m hm
  · rcases List.mem_append.mp hm with hm | hm
    · exact hpart e (Tree.mem_cells_of_child hm hem)
    · obtain rfl := List.mem_singleton.mp hm
      rcases Tree.mem_cells.mp hem with rfl | ⟨m, hm, -⟩
      · refine ⟨hd, fun hnone => (by cases hnone), List.nodup_nil, ?_⟩
        show d.kind.Admits []
        cases d.kind with
        | static => trivial
        | param =>
          intro k hk
          cases hk
        | wildcard => rfl
      · cases hm

theorem sound_split (h : ∀ e ∈ (C.plug (.node slot c children)).all, e.Sound)
    (hkind : c.kind = .static) (htext : c.text = front ++ back) (hfront : front ≠ [])
    (hback : back ≠ []) :
    ∀ e ∈ (C.plug (.node slot (c.upper front) [.node lower (c.lower back) children])).all,
      e.Sound := by
  have hpart := fun e he => h e (Context.mem_of_part he)
  have htop := hpart _ Tree.top_mem
  have hwhole : C.above ++ front ++ back = C.above ++ c.text := by rw [htext, List.append_assoc]
  refine Context.forall_exchange ?_ h fun e he => ?_
  · simp [hkind]
  · rcases Tree.mem_cells.mp he with rfl | ⟨m, hm, hem⟩
    · refine ⟨htop.content.upper hkind htext hfront _, fun hroot => ⟨rfl, (htop.root hroot).2⟩,
        List.nodup_singleton _, ?_⟩
      show (c.upper front).kind.Admits _
      trivial
    · obtain rfl := List.mem_singleton.mp hm
      rcases Tree.mem_cells.mp hem with rfl | ⟨m, hm, hem⟩
      · refine ⟨?_, fun hnone => (by cases hnone), htop.labels, ?_⟩
        · show (c.lower back).Sound (C.above ++ front ++ back)
          rw [hwhole]
          exact htop.content.lower hkind htext hback
        · show c.kind.Admits _
          exact htop.kids
      · have hcells : ∀ e ∈ m.cells (C.above ++ c.text) (some slot), e.Sound :=
          fun e he => hpart e (Tree.mem_cells_of_child hm he)
        exact Tree.forall_cells hwhole hcells Cell.Sound.below e hem

end edits

/-! ### Where a stretch goes -/

/-- What has been put in of a path has not been left where no child goes on. -/
theorem behind_of_leaf {pre stretch rest : List Char} {C : Context H} {slot : Slot} {c : Content H}
    {children : List (Tree H)} (hsound : ∀ e ∈ (C.plug (.node slot c children)).all, e.Sound)
    (hreached : pre ≠ [] → ∃ e ∈ (C.plug (.node slot c children)).all, e.path = pre)
    (hpath : C.above ++ c.text ++ rest = pre ++ stretch)
    (hlabel : ∀ m ∈ children, m.content.label ≠ labelOf rest) :
    ∃ s, C.above ++ c.text = pre ++ s ∧ stretch = s ++ rest := by
  rcases List.append_eq_append_iff.mp hpath with ⟨s, hpre, hrest⟩ | ⟨s, hself, hstretch⟩
  · cases s with
    | nil => exact ⟨[], by rw [List.append_nil, hpre, List.append_nil], hrest.symm⟩
    | cons x s =>
      obtain ⟨e, he, heq⟩ := hreached (by rw [hpre]; simp)
      have hmem : (Tree.node slot c children).top C.above C.parent ∈
          (C.plug (.node slot c children)).all :=
        Context.top_mem
      obtain ⟨k, hk, hkx⟩ := Tree.exists_kid hsound hmem he (hpre.symm.trans heq.symm)
      obtain ⟨m, hm, rfl⟩ := List.mem_map.mp hk
      exact (hlabel m hm (by rw [hrest]; exact hkx)).elim
  · exact ⟨s, hself, hstretch⟩

/-- Nor has it been left where it goes on inside a text with another character. -/
theorem behind_of_fork {pre stretch rest front back : List Char} {C : Context H} {slot : Slot}
    {c : Content H} {children : List (Tree H)}
    (hsound : ∀ e ∈ (C.plug (.node slot c children)).all, e.Sound)
    (hreached : pre ≠ [] → ∃ e ∈ (C.plug (.node slot c children)).all, e.path = pre)
    (hpath : C.above ++ front ++ rest = pre ++ stretch) (htext : c.text = front ++ back)
    (hfront : front ≠ []) (hback : back ≠ []) (hlabel : labelOf back ≠ labelOf rest) :
    ∃ s, C.above ++ front = pre ++ s ∧ stretch = s ++ rest := by
  rcases List.append_eq_append_iff.mp hpath with ⟨s, hpre, hrest⟩ | ⟨s, hself, hstretch⟩
  · cases s with
    | nil => exact ⟨[], by rw [List.append_nil, hpre, List.append_nil], hrest.symm⟩
    | cons x s =>
      obtain ⟨e, he, heq⟩ := hreached (by rw [hpre]; simp)
      have hmem : (Tree.node slot c children).top C.above C.parent ∈
          (C.plug (.node slot c children)).all :=
        Context.top_mem
      obtain ⟨y, text, rfl⟩ := List.exists_cons_of_ne_nil hfront
      obtain ⟨z, back, rfl⟩ := List.exists_cons_of_ne_nil hback
      have hfirst : c.label = y := (hsound _ hmem).content.label.trans (congrArg labelOf htext)
      have hgoes : C.above ++ c.label :: (text ++ x :: s) = e.path := by
        rw [heq, hpre, hfirst, List.append_assoc]
        rfl
      obtain ⟨tail, htail⟩ := Tree.path_through hsound hmem he hgoes
      rw [heq, hpre, Tree.top_path, Tree.content_node, htext] at htail
      simp only [List.append_assoc, List.append_cancel_left_eq] at htail
      refine (hlabel ?_).elim
      rw [hrest]
      exact (List.cons.inj htail).1.symm
  · exact ⟨s, hself, hstretch⟩

/-- The end of a stretch is of the stretch's kind. -/
theorem fits_of_adds {pre s rest : List Char} {kind : Kind} (h : Stop.Adds pre kind (s ++ rest))
    (hrest : rest ≠ []) : kind.Fits rest ∧ (s ≠ [] → Literal s) := by
  have hmark {mark : Char} (h : s ++ rest = [mark]) : rest = [mark] ∧ s = [] := by
    rcases List.append_eq_singleton_iff.mp h with ⟨hs, hrest'⟩ | ⟨_, hnil⟩
    · exact ⟨hrest', hs⟩
    · exact (hrest hnil).elim
  cases kind with
  | static => exact ⟨(literal_append.mp h.2.1).2, fun _ => (literal_append.mp h.2.1).1⟩
  | param => exact ⟨(hmark h.1).1, fun hs => (hs (hmark h.1).2).elim⟩
  | wildcard => exact ⟨(hmark h.1).1, fun hs => (hs (hmark h.1).2).elim⟩

/-- Behind a parameter only text goes on, and nothing behind a wildcard. -/
theorem adds_behind {pre s rest : List Char} {kind : Kind} {e : Cell H} (he : e.Sound)
    (hpath : e.path = pre ++ s) (h : Stop.Adds pre kind (s ++ rest)) (hrest : rest ≠ []) :
    e.content.kind = .static ∨
      e.content.kind = .param ∧ kind = .static ∧ rest.head? = some '/' := by
  by_cases hs : s = []
  · subst hs
    rw [List.append_nil] at hpath
    cases kind with
    | static =>
      obtain ⟨hhead, -, hnil | hlast⟩ := h
      · exact (he.path_ne_nil (hpath.trans hnil)).elim
      · cases hkind : e.content.kind with
        | static => exact .inl rfl
        | param => exact .inr ⟨rfl, rfl, hhead⟩
        | wildcard =>
          have := he.wildcard_getLast hkind
          rw [hpath, hlast] at this
          cases this
    | param => exact .inl (he.static_iff.mpr (hpath ▸ h.2))
    | wildcard => exact .inl (he.static_iff.mpr (hpath ▸ h.2))
  · refine .inl (he.static_iff.mpr
      ⟨s.getLast hs, ?_, literal_getLast ((fits_of_adds h hrest).2 hs) hs⟩)
    rw [hpath, getLast?_append hs]

/-- A node at which the path was only cut is put right by the next stretch. -/
theorem tight_of_longer {n : Tree H} (hsound : ∀ c ∈ n.all, c.Sound) {d e : Cell H}
    (hd : d ∈ n.all) (he : e ∈ n.all) {kind : Kind} {stretch : List Char}
    (hpath : e.path = d.path ++ stretch) (h : Stop.Adds d.path kind stretch) : d.Tight := by
  obtain ⟨x, rest, rfl⟩ := List.exists_cons_of_ne_nil h.ne_nil
  obtain ⟨k, hk, hkx⟩ := Tree.exists_kid hsound hd he hpath.symm
  refine .inr ⟨List.ne_nil_of_mem hk, fun hstatic hkinds => ?_⟩
  have hkstatic : k.kind = .static := by
    have hmem : k.kind ∈ d.kids.map (·.kind) := List.mem_map_of_mem hk
    rw [hkinds] at hmem
    exact List.mem_singleton.mp hmem
  obtain ⟨y, hy, hliteral⟩ := (hsound d hd).static_iff.mp hstatic
  -- The kid is static, so its first character is no mark.
  have hx : Literal [x] := by
    obtain ⟨f, hf, rfl, -, -⟩ := Tree.cell_of_kid hd hk
    have hfits := (hsound f hf).content.fits
    obtain ⟨text, htext⟩ := (hsound f hf).content.text_eq
    rw [show f.content.kind = .static from hkstatic, htext,
      show f.content.label = x from hkx] at hfits
    have hliteral : Literal ([x] ++ text) := hfits
    exact (literal_append.mp hliteral).1
  cases kind with
  | static =>
    obtain ⟨-, -, hnil | hlast⟩ := h
    · exact (hsound d hd).path_ne_nil hnil
    · rw [hy, Option.some.injEq] at hlast
      exact (literal_singleton.mp hliteral).1 hlast
  | param => exact (literal_singleton.mp hx).1 (List.cons.inj h.1).1
  | wildcard => exact (literal_singleton.mp hx).2 (List.cons.inj h.1).1

/-! ### Growing -/

/-- A tree into which a path is being put, and has been up to here. -/
structure Growing (pre : List Char) (n : Tree H) : Prop where
  sound : ∀ c ∈ n.all, c.Sound
  tight : ∀ c ∈ n.all, c.path ≠ pre → c.Tight
  reached : pre ≠ [] → ∃ c ∈ n.all, c.path = pre

theorem Growing.ne_bare {pre : List Char} {n : Tree H} (h : Growing pre n) : n ≠ bare := by
  rintro rfl
  exact (h.sound _ Tree.top_mem).content.ne_nil rfl

section planted
variable {kind : Kind} {r : Option (Registration H)} {pre stretch : List Char} {last : Slot}
  {n n' : Tree H}

/-- A new leaf's content. -/
theorem leaf_sound {rest path : List Char} (hrest : rest ≠ []) (hfits : kind.Fits rest)
    (hr : ∀ reg ∈ r, Names reg.pattern reg.params path) :
    ((Content.plain kind rest).register r).Sound path :=
  (Content.plain_sound hrest hfits path).register hr

@[simp] theorem text_register (c : Content H) : (c.register r).text = c.text := by cases r <;> rfl

@[simp] theorem label_register (c : Content H) : (c.register r).label = c.label := by
  cases r <;> rfl

@[simp] theorem kind_register (c : Content H) : (c.register r).kind = c.kind := by cases r <;> rfl

/-- A node may have the child that a path goes on with behind it. -/
theorem admits_concat {above : List Char} {parent : Option Slot} {slot leaf : Slot} {c : Content H}
    {children : List (Tree H)} {s rest : List Char}
    (htop : (Tree.top above parent (.node slot c children)).Sound)
    (hself : above ++ c.text = pre ++ s) (hadds : Stop.Adds pre kind (s ++ rest))
    (hrest : rest ≠ []) :
    c.kind.Admits
      ((children ++ [Tree.node leaf ((Content.plain kind rest).register r) []]).map Tree.kid) := by
  rcases adds_behind htop hself hadds hrest with hstatic | ⟨hparam, rfl, hhead⟩
  · rw [show c.kind = .static from hstatic]
    trivial
  · have hkids := htop.kids
    rw [hparam] at hkids
    rw [show c.kind = .param from hparam]
    intro k hk
    rw [List.map_append, List.mem_append] at hk
    rcases hk with hk | hk
    · exact hkids k hk
    · obtain rfl := List.mem_singleton.mp hk
      obtain ⟨rest, rfl⟩ := List.head?_eq_some_iff.mp hhead
      exact ⟨kind_register _, label_register _⟩

theorem Planted.sound (h : Planted kind r (pre ++ stretch) last n n') (hn : Growing pre n)
    (hadds : Stop.Adds pre kind stretch)
    (hr : ∀ reg ∈ r, Names reg.pattern reg.params (pre ++ stretch)) : ∀ c ∈ n'.all, c.Sound := by
  cases h with
  | first => exact (hn.ne_bare rfl).elim
  | here hpath =>
    refine sound_setContent hn.sound ?_ (text_register _) (label_register _) (kind_register _)
    rw [hpath]
    refine Content.Sound.register ?_ hr
    rw [← hpath]
    exact (hn.sound _ Context.top_mem).content
  | @leaf C slot leaf c children rest hpath hrest hlabel =>
    obtain ⟨s, hself, rfl⟩ := behind_of_leaf hn.sound hn.reached hpath hlabel
    have htop := hn.sound _ Context.top_mem
    refine sound_addLeaf hn.sound ?_ ?_ ?_
    · rw [text_register]
      show ((Content.plain kind rest).register r).Sound (C.above ++ c.text ++ rest)
      rw [hpath]
      exact leaf_sound hrest (fits_of_adds hadds hrest).1 hr
    · rw [label_register]
      exact hlabel
    · exact admits_concat htop hself hadds hrest
  | cut hkind htext hfront hback hpath =>
    have htop := hn.sound _ Context.top_mem
    refine sound_setContent (sound_split hn.sound hkind htext hfront hback) ?_ (text_register _)
      (label_register _) (kind_register _)
    exact (htop.content.upper hkind htext hfront _).register (hpath ▸ hr)
  | @fork C slot lower leaf c children front back rest hkind htext hfront hback hpath hrest
      hlabel =>
    obtain ⟨s, -, rfl⟩ := behind_of_fork hn.sound hn.reached hpath htext hfront hback hlabel
    have hsplit : ∀ e ∈ (C.plug (.node slot (c.upper front)
        [.node lower (c.lower back) children])).all, e.Sound :=
      sound_split hn.sound hkind htext hfront hback
    refine sound_addLeaf hsplit ?_ ?_ ?_
    · rw [text_register]
      show ((Content.plain kind rest).register r).Sound (C.above ++ front ++ rest)
      rw [hpath]
      exact leaf_sound hrest (fits_of_adds hadds hrest).1 hr
    · intro m hm
      obtain rfl := List.mem_singleton.mp hm
      rw [label_register]
      exact hlabel
    · show (c.upper front).kind.Admits _
      trivial

/-- The path has a node then, and the registration is there. -/
theorem Planted.reached (h : Planted kind r (pre ++ stretch) last n n') :
    ∃ c ∈ n'.all, c.slot = last ∧ c.path = pre ++ stretch ∧
      (r.isSome → c.content.hasRoute = true) := by
  have hroute (c : Content H) (hr : r.isSome) : (c.register r).hasRoute = true := by
    cases r with
    | none => cases hr
    | some r => exact Content.hasRoute_attach c r
  have htop {C : Context H} {m : Tree H} : m.top C.above C.parent ∈ (C.plug m).all :=
    Context.top_mem
  cases h with
  | first =>
    refine ⟨_, Tree.top_mem, rfl, ?_, hroute _⟩
    exact (List.nil_append _).trans (text_register _)
  | here hpath =>
    refine ⟨_, htop, rfl, ?_, hroute _⟩
    rw [← hpath, ← text_register (r := r)]
    rfl
  | @leaf C slot _ c children rest hpath =>
    have hleaf : Tree.node last ((Content.plain kind rest).register r) [] ∈
        children ++ [.node last ((Content.plain kind rest).register r) []] :=
      List.mem_append_right _ (List.mem_singleton_self _)
    refine ⟨_, Context.mem_of_part (Tree.mem_cells_of_child hleaf Tree.top_mem), rfl, ?_, hroute _⟩
    rw [← hpath]
    exact congrArg (C.above ++ c.text ++ ·) (text_register _)
  | @cut C slot lower c children front back hkind htext hfront hback hpath =>
    refine ⟨_, htop, rfl, ?_, hroute _⟩
    rw [← hpath]
    exact congrArg (C.above ++ ·) (text_register _)
  | @fork C slot lower _ c children front back rest hkind htext hfront hback hpath =>
    have hleaf : Tree.node last ((Content.plain kind rest).register r) [] ∈
        [.node lower (c.lower back) children,
          .node last ((Content.plain kind rest).register r) []] :=
      List.mem_cons_of_mem _ (List.mem_singleton_self _)
    refine ⟨_, Context.mem_of_part (Tree.mem_cells_of_child hleaf Tree.top_mem), rfl, ?_, hroute _⟩
    rw [← hpath]
    exact congrArg (C.above ++ front ++ ·) (text_register _)

end planted

/-! ### Tightness

While a path is put in, only the node at which it was cut last and the one at its end may be
slack. -/

section tight
variable {kind : Kind} {r : Option (Registration H)} {pre path front back rest : List Char}
  {C : Context H} {slot lower leaf : Slot} {c : Content H} {children : List (Tree H)}

def Cell.TightBut (pre path : List Char) (e : Cell H) : Prop :=
  e.path ≠ pre → e.path ≠ path → e.Tight

theorem Cell.TightBut.of_path {e : Cell H} (h : e.path = path) : e.TightBut pre path :=
  fun _ hne => (hne h).elim

theorem Cell.TightBut.below {n : Tree H} {above : List Char} {parent : Option Slot} {parent' : Slot}
    (h : (n.top above parent).TightBut pre path) :
    (n.top above (some parent')).TightBut pre path := h

/-- A new leaf is at the end of the path. -/
theorem tightBut_leaf {above : List Char} {parent : Option Slot} (hpath : above ++ rest = path) :
    ∀ e ∈ (Tree.node leaf ((Content.plain kind rest).register r) []).cells above parent,
      e.TightBut pre path := by
  intro e he
  rcases Tree.mem_cells.mp he with rfl | ⟨m, hm, -⟩
  · apply Cell.TightBut.of_path
    rw [← hpath]
    exact congrArg (above ++ ·) (text_register _)
  · cases hm

/-- A node with one more child is as tight as it was. -/
theorem Cell.Tight.concat {above : List Char} {parent : Option Slot} {m : Tree H}
    (h : (Tree.top above parent (.node slot c children)).Tight) :
    (Tree.top above parent (.node slot c (children ++ [m]))).Tight := by
  rcases h with hroute | ⟨hkids, -⟩
  · exact .inl hroute
  · refine .inr ⟨by simp, fun _ hone => ?_⟩
    -- There was a child already, so the new one is not the only one.
    have hlength := congrArg List.length hone
    have hpos := List.length_pos_of_ne_nil hkids
    simp only [Tree.top_kids, Tree.children_node, List.length_map, List.length_append,
      List.length_singleton] at hlength hpos
    omega

/-- The back of a split node is as tight as the whole was. -/
theorem tightBut_lower (h : ∀ e ∈ (C.plug (.node slot c children)).all, e.TightBut pre path)
    (htext : c.text = front ++ back) :
    ∀ e ∈ (Tree.node lower (c.lower back) children).cells (C.above ++ front) (some slot),
      e.TightBut pre path := by
  have hwhole : C.above ++ front ++ back = C.above ++ c.text := by rw [htext, List.append_assoc]
  have hpart := fun e he => h e (Context.mem_of_part he)
  intro e he
  rcases Tree.mem_cells.mp he with rfl | ⟨m, hm, hem⟩
  · have hpath : ((Tree.node lower (c.lower back) children).top (C.above ++ front)
        (some slot)).path = ((Tree.node slot c children).top C.above C.parent).path := hwhole
    rw [Cell.TightBut, hpath]
    exact hpart _ Tree.top_mem
  · have hcells : ∀ e ∈ m.cells (C.above ++ c.text) (some slot), e.TightBut pre path :=
      fun e he => hpart e (Tree.mem_cells_of_child hm he)
    exact Tree.forall_cells hwhole hcells Cell.TightBut.below e hem

/-- No other node becomes slack. -/
theorem Planted.tightBut {last : Slot} {n n' : Tree H} (h : Planted kind r path last n n')
    (hne : n ≠ bare) (hold : ∀ e ∈ n.all, e.TightBut pre path) :
    ∀ e ∈ n'.all, e.TightBut pre path := by
  cases h with
  | first => exact (hne rfl).elim
  | @here C slot c children hpath =>
    refine Context.forall_exchange ?_ hold fun e he => ?_
    · simp
    · rcases Tree.mem_cells.mp he with rfl | ⟨m, hm, hem⟩
      · apply Cell.TightBut.of_path
        rw [← hpath, ← text_register (r := r)]
        rfl
      · refine hold e (Context.mem_of_part (Tree.mem_cells_of_child hm ?_))
        rw [Tree.content_node, text_register] at hem
        exact hem
  | @leaf C slot leaf c children rest hpath hrest hlabel =>
    refine Context.forall_exchange (n := .node slot c children) rfl hold fun e he => ?_
    rcases Tree.mem_cells.mp he with rfl | ⟨m, hm, hem⟩
    · exact fun hpre hpath => (hold _ Context.top_mem hpre hpath).concat
    · rcases List.mem_append.mp hm with hm | hm
      · exact hold e (Context.mem_of_part (Tree.mem_cells_of_child hm hem))
      · obtain rfl := List.mem_singleton.mp hm
        exact tightBut_leaf hpath e hem
  | @cut C slot lower c children front back hkind htext hfront hback hpath =>
    refine Context.forall_exchange ?_ hold fun e he => ?_
    · simp [hkind]
    · rcases Tree.mem_cells.mp he with rfl | ⟨m, hm, hem⟩
      · apply Cell.TightBut.of_path
        rw [← hpath]
        exact congrArg (C.above ++ ·) (text_register _)
      · obtain rfl := List.mem_singleton.mp hm
        rw [Tree.content_node, text_register, Content.upper_text] at hem
        exact tightBut_lower hold htext e hem
  | @fork C slot lower leaf c children front back rest hkind htext hfront hback hpath hrest =>
    refine Context.forall_exchange ?_ hold fun e he => ?_
    · simp [hkind]
    · rcases Tree.mem_cells.mp he with rfl | ⟨m, hm, hem⟩
      · exact fun _ _ => .inr ⟨by simp, fun _ hone => by simp at hone⟩
      · rcases List.mem_cons.mp hm with rfl | hm
        · exact tightBut_lower hold htext e hem
        · obtain rfl := List.mem_singleton.mp hm
          exact tightBut_leaf hpath e hem

end tight

section planted
variable {kind : Kind} {r : Option (Registration H)} {pre stretch : List Char} {last : Slot}
  {n n' : Tree H}

/-- After a stretch only its end may be slack. -/
theorem Planted.growing (h : Planted kind r (pre ++ stretch) last n n') (hn : Growing pre n)
    (hadds : Stop.Adds pre kind stretch)
    (hr : ∀ reg ∈ r, Names reg.pattern reg.params (pre ++ stretch)) :
    Growing (pre ++ stretch) n' := by
  have hsound := h.sound hn hadds hr
  obtain ⟨e, he, -, hpath, -⟩ := h.reached
  refine ⟨hsound, fun c hc hne => ?_, fun _ => ⟨e, he, hpath⟩⟩
  by_cases hpre : c.path = pre
  · subst hpre
    exact tight_of_longer hsound hc he hpath hadds
  · have hold : ∀ e ∈ n.all, e.TightBut pre (pre ++ stretch) :=
      fun e he hpre _ => hn.tight e he hpre
    exact h.tightBut hn.ne_bare hold c hc hpre hne

/-- Where the path has its route nothing is slack. -/
theorem Planted.tight {reg : Registration H}
    (h : Planted kind (some reg) (pre ++ stretch) last n n')
    (hgrowing : Growing (pre ++ stretch) n') : ∀ c ∈ n'.all, c.Tight := by
  obtain ⟨e, he, -, hpath, hroute⟩ := h.reached
  intro c hc
  by_cases hne : c.path = pre ++ stretch
  · have heq : c = e :=
      List.inj_on_of_nodup_map (Tree.nodup_paths hgrowing.sound) hc he (hne.trans hpath.symm)
    rw [heq]
    exact .inl (hroute rfl)
  · exact hgrowing.tight c hc hne

/-- The first stretch of the first pattern. -/
theorem growing_first (hadds : Stop.Adds [] kind stretch)
    (hr : ∀ reg ∈ r, Names reg.pattern reg.params stretch) :
    Growing stretch (.node root ((Content.plain kind stretch).register r) []) := by
  obtain ⟨rfl, hhead, hliteral⟩ : kind = .static ∧ stretch.head? = some '/' ∧ Literal stretch := by
    cases kind with
    | static => exact ⟨rfl, hadds.1, hadds.2.1⟩
    | param =>
      obtain ⟨c, hc, -⟩ := hadds.2
      cases hc
    | wildcard =>
      obtain ⟨c, hc, -⟩ := hadds.2
      cases hc
  obtain ⟨rest, rfl⟩ := List.head?_eq_some_iff.mp hhead
  have hall : ∀ c ∈ (Tree.node root ((Content.plain .static ('/' :: rest)).register r) []).all,
      c = Tree.top [] none (.node root ((Content.plain .static ('/' :: rest)).register r) []) := by
    intro c hc
    rcases Tree.mem_cells.mp hc with rfl | ⟨m, hm, -⟩
    · rfl
    · cases hm
  have hpath : (Tree.top [] none
      (.node root ((Content.plain .static ('/' :: rest)).register r) [])).path = '/' :: rest :=
    text_register _
  refine ⟨fun c hc => ?_, fun c hc hne => ?_, fun _ => ⟨_, Tree.top_mem, hpath⟩⟩
  · rw [hall c hc]
    refine ⟨?_, fun _ => ⟨kind_register _, label_register _⟩, List.nodup_nil, ?_⟩
    · rw [hpath]
      exact leaf_sound hadds.ne_nil hliteral hr
    · show ((Content.plain .static ('/' :: rest)).register r).kind.Admits []
      rw [kind_register]
      trivial
  · rw [hall c hc] at hne
    exact (hne hpath).elim

end planted

end Routing.Trie

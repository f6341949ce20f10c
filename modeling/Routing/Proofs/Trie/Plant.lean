import Routing.Proofs.Trie.Growing

/-! Planting a pattern.

Put in stretch by stretch, a pattern ends up in a trie of sound and tight nodes, and the
routes are those there were, but for the one at the pattern's path (`Holds.plant`). -/
namespace Routing
namespace Trie
open Text
variable {H : Type}

/-! ### The routes -/

/-- What a node carries belongs to its path. -/
structure Content.Carries (c : Content H) (path : List Char) : Prop where
  plain : c.hasRoute = false → c.name = "" ∧ c.pattern = "" ∧ c.params = []
  route : c.hasRoute = true → Names c.pattern c.params path

/-- The second list of routes is the first after a registration for a path. -/
def Registered (r : Option (Registration H)) (path : List Char) (before after : List (Route H)) :
    Prop :=
  ∃ front back, ∃ c : Content H, c.Carries path ∧
    before = front ++ (c.routeAt path).toList ++ back ∧
    after = front ++ ((c.register r).routeAt path).toList ++ back

theorem Registered.eq {path : List Char} {before after : List (Route H)}
    (h : Registered none path before after) : after = before := by
  obtain ⟨front, back, c, -, rfl, rfl⟩ := h
  rfl

theorem Content.plain_carries (kind : Kind) (text path : List Char) :
    (plain kind text : Content H).Carries path := by
  refine ⟨fun _ => ⟨rfl, rfl, rfl⟩, fun hroute => ?_⟩
  cases hroute

section planted
variable {kind : Kind} {r : Option (Registration H)} {path : List Char} {n n' : Tree H}

theorem registered_first (kind : Kind) (r : Option (Registration H)) (path : List Char) :
    Registered r path (bare : Tree H).routes
      (Tree.node root ((Content.plain kind path).register r) []).routes := by
  refine ⟨[], [], Content.plain kind path, Content.plain_carries .., rfl, ?_⟩
  rw [List.append_nil, List.nil_append]
  show (Tree.node root ((Content.plain kind path).register r) []).routesAt [] = _
  rw [Tree.routesAt_eq]
  show (((Content.plain kind path).register r).routeAt
    ((Content.plain kind path).register r).text).toList ++ [] = _
  rw [text_register, List.append_nil]
  rfl

/-- The routes of a leaf. -/
theorem routesAt_leaf (above : List Char) (leaf : Slot) (kind : Kind)
    (r : Option (Registration H)) (rest : List Char) :
    (Tree.node leaf ((Content.plain kind rest).register r) []).routesAt above =
      (((Content.plain kind rest).register r).routeAt (above ++ rest)).toList := by
  rw [Tree.routesAt_eq]
  show (((Content.plain kind rest).register r).routeAt
    (above ++ ((Content.plain kind rest).register r).text)).toList ++ [] = _
  rw [text_register, List.append_nil]
  rfl

/-- The back of a split node has the routes that the whole had. -/
theorem routesAt_lower {c : Content H} {front back : List Char} (htext : c.text = front ++ back)
    (above : List Char) (slot lower : Slot) (children : List (Tree H)) :
    (Tree.node lower (c.lower back) children).routesAt (above ++ front) =
      (Tree.node slot c children).routesAt above := by
  rw [Tree.routesAt_eq, Tree.routesAt_eq]
  show ((c.lower back).routeAt (above ++ front ++ back)).toList ++
    children.flatMap (Tree.routesAt (above ++ front ++ back)) =
      (c.routeAt (above ++ c.text)).toList ++ children.flatMap (Tree.routesAt (above ++ c.text))
  rw [htext, List.append_assoc]
  rfl

theorem Planted.registered {last : Slot} (h : Planted kind r path last n n')
    (hsound : ∀ c ∈ n.all, c.Sound) : Registered r path n.routes n'.routes := by
  cases h with
  | first => exact registered_first ..
  | @here C slot c children hpath =>
    have hself : c.Sound (C.above ++ c.text) :=
      (hsound _ Context.top_mem).content
    rw [hpath] at hself
    refine ⟨C.routesBefore, children.flatMap (Tree.routesAt path) ++ C.routesAfter, c,
      ⟨hself.plain, hself.route⟩, ?_, ?_⟩
    · rw [C.routes_plug, Tree.routesAt_eq]
      simp only [Tree.content, Tree.children, hpath, List.append_assoc]
    · rw [C.routes_plug, Tree.routesAt_eq]
      simp only [Tree.content, Tree.children, text_register, hpath, List.append_assoc]
  | @leaf C slot _ c children rest hpath hrest hlabel =>
    refine ⟨C.routesBefore ++ (Tree.node slot c children).routesAt C.above, C.routesAfter,
      .plain kind rest, Content.plain_carries .., ?_, ?_⟩
    · rw [C.routes_plug, Content.routeAt_eq_none rfl, Option.toList_none, List.append_nil]
    · rw [C.routes_plug, Tree.routesAt_eq, Tree.routesAt_eq]
      simp only [Tree.content, Tree.children, List.flatMap_append, List.flatMap_cons,
        List.flatMap_nil, List.append_nil, routesAt_leaf, hpath, List.append_assoc]
  | @cut C _ lower c children front back hkind htext hfront hback hpath =>
    refine ⟨C.routesBefore, (Tree.node last c children).routesAt C.above ++ C.routesAfter,
      c.upper front, ⟨fun _ => ⟨rfl, rfl, rfl⟩, fun hroute => (by cases hroute)⟩, ?_, ?_⟩
    · rw [C.routes_plug, Content.routeAt_eq_none rfl, Option.toList_none, List.append_nil,
        List.append_assoc]
    · rw [C.routes_plug, Tree.routesAt_eq]
      have hfront : ((c.upper front).register r).text = front := text_register _
      have hlower := routesAt_lower htext C.above last lower children
      rw [hpath] at hlower
      simp only [Tree.content, Tree.children, hfront, List.flatMap_cons, List.flatMap_nil,
        List.append_nil, hlower, hpath, List.append_assoc]
  | @fork C slot lower _ c children front back rest hkind htext hfront hback hpath hrest hlabel =>
    refine ⟨C.routesBefore ++ (Tree.node slot c children).routesAt C.above, C.routesAfter,
      .plain kind rest, Content.plain_carries .., ?_, ?_⟩
    · rw [C.routes_plug, Content.routeAt_eq_none rfl, Option.toList_none, List.append_nil]
    · rw [C.routes_plug, Tree.routesAt_eq]
      have hupper : (c.upper front).routeAt (C.above ++ front) = none :=
        Content.routeAt_eq_none rfl _
      have hfront : (c.upper front).text = front := rfl
      simp only [Tree.content, Tree.children, hfront, hupper, Option.toList_none, List.nil_append,
        List.flatMap_cons, List.flatMap_nil, List.append_nil,
        routesAt_lower htext C.above slot, routesAt_leaf, hpath, List.append_assoc]

end planted

/-! ### The stored nodes -/

/-- A tree that a path is being put into; before the first stretch of all there may be none. -/
def Grown (pre : List Char) (n : Tree H) : Prop := pre = [] ∧ n = bare ∨ Growing pre n

/-- Every stretch begins where the root does. -/
theorem Growing.root_label {pre stretch : List Char} {kind : Kind} {n : Tree H}
    (h : Growing pre n) (hadds : Stop.Adds pre kind stretch) :
    labelOf (pre ++ stretch) = n.content.label := by
  have htop : (n.top [] none).Sound := h.sound _ Tree.top_mem
  by_cases hpre : pre = []
  · subst hpre
    rw [show n.content.label = '/' from (htop.root rfl).2]
    cases kind with
    | static => rw [List.nil_append, labelOf, hadds.1, Option.getD_some]
    | param =>
      obtain ⟨c, hc, -⟩ := hadds.2
      cases hc
    | wildcard =>
      obtain ⟨c, hc, -⟩ := hadds.2
      cases hc
  · obtain ⟨c, hc, hpath⟩ := h.reached hpre
    obtain ⟨rest, hrest⟩ := Tree.path_of_mem_cells hc
    have hne : n.content.text ≠ [] := htop.content.ne_nil
    rw [labelOf_append hpre, ← hpath, hrest, List.nil_append, labelOf_append hne]
    exact htop.content.label.symm

/-- Where a front of a path has ended in a tree, and the text of the node there: nowhere yet, or
at a node. -/
inductive EndsAt (n : Tree H) : List Char → Slot → List Char → Prop
  | start : EndsAt n [] root []
  | node {c : Cell H} : c ∈ n.all → EndsAt n c.path c.slot c.content.text

/-- One stretch. -/
theorem Holds.stretch {t : Trie H} {n : Tree H} {pre stretch : List Char} {kind : Kind}
    {r : Option (Registration H)} (h : t.Holds n) (hn : Grown pre n)
    (hadds : Stop.Adds pre kind stretch)
    (hr : ∀ reg ∈ r, Names reg.pattern reg.params (pre ++ stretch)) :
    ∃ last t' n', t.insert? kind (pre ++ stretch) r = some (last, t') ∧ t'.Holds n' ∧
      Growing (pre ++ stretch) n' ∧ Registered r (pre ++ stretch) n.routes n'.routes ∧
      Planted kind r (pre ++ stretch) last n n' := by
  rcases hn with ⟨rfl, rfl⟩ | hn
  · obtain ⟨t', hinsert, hholds⟩ := insert?_bare h kind r stretch
    exact ⟨root, t', _, hinsert, hholds, growing_first hadds hr, registered_first .., .first⟩
  · have hne : pre ++ stretch ≠ [] := List.append_ne_nil_of_right_ne_nil _ hadds.ne_nil
    obtain ⟨last, t', n', hinsert, hholds, hplanted⟩ :=
      Holds.insertFrom kind r (C := .hole) h hn.sound hne (hn.root_label hadds)
    replace hplanted : Planted kind r (pre ++ stretch) last n n' := hplanted
    rw [show n.slot = root from h.rooted] at hinsert
    exact ⟨last, t', n', hinsert, hholds, hplanted.growing hn hadds hr,
      hplanted.registered hn.sound, hplanted⟩

/-- Puts in the path up to each of some stops, from the root. -/
def scaffold? (t : Trie H) (stops : List Stop) : Option (Trie H) :=
  stops.foldlM (fun t stop => (t.insert? stop.kind stop.path none).map Prod.snd) t

theorem scaffold?_cons {t t' : Trie H} {stop : Stop} {last : Slot}
    (h : t.insert? stop.kind stop.path none = some (last, t')) (stops : List Stop) :
    t.scaffold? (stop :: stops) = t'.scaffold? stops := by
  rw [scaffold?, List.foldlM_cons, h]
  rfl

/-- The stretches up to the cuts leave the routes as they are. -/
theorem Holds.scaffold {stops : List Stop} {last : Stop} {t : Trie H} {n : Tree H}
    {pre : List Char} (h : t.Holds n) (hn : Grown pre n)
    (hchain : Stop.Chain pre (stops ++ [last])) :
    ∃ t' n' pre', t.scaffold? stops = some t' ∧ t'.Holds n' ∧ Grown pre' n' ∧
      Stop.Chain pre' [last] ∧ n'.routes = n.routes := by
  induction stops generalizing t n pre with
  | nil => exact ⟨t, n, pre, rfl, h, hn, hchain, rfl⟩
  | cons stop rest ih =>
    cases hchain with
    | @cons _ stretch kind _ hadds hchain =>
      obtain ⟨slot, t₁, n₁, hinsert, hholds, hgrowing, hroutes, -⟩ :=
        h.stretch hn hadds (r := none) (by intro reg hreg; cases hreg)
      obtain ⟨t', n', pre', hplant, hholds', hgrown, hlast, hroutes'⟩ :=
        ih hholds (.inr hgrowing) hchain
      exact ⟨t', n', pre', (scaffold?_cons hinsert rest).trans hplant, hholds', hgrown, hlast,
        hroutes'.trans hroutes.eq⟩

/-! ### Going on from a node -/

/-- A path that begins with a node's text goes through the node as it is. -/
theorem insertFrom?_through {t : Trie H} {slot : Slot} {n : Node H} (hn : t.node? slot = some n)
    (htext : n.text ≠ []) (kind : Kind) (r : Option (Registration H)) (left : List Char) :
    t.insertFrom? kind r slot (n.text ++ left) =
      if left = [] then t.register? slot r
      else (t.childLabelled? slot (labelOf left)).bind fun child =>
        match child with
        | some child => t.insertFrom? kind r child left
        | none => t.addLeaf? slot kind left r := by
  exact (insertFrom?_eq hn kind r rfl htext (sharedLength_append ..)).trans
    (if_neg (Nat.lt_irrefl _))

/-- A path that goes on behind a node below is put in from that node on. -/
theorem Stores.insertFrom?_below {t : Trie H} {parent : Option Slot} {n : Tree H}
    (h : t.Stores parent n) {above : List Char} (hsound : ∀ c ∈ n.cells above parent, c.Sound)
    {c : Cell H} (hc : c ∈ n.cells above parent) (kind : Kind) (r : Option (Registration H))
    {path : List Char} (hpath : c.path = above ++ path) (more : List Char) :
    t.insertFrom? kind r n.slot (path ++ more) =
      t.insertFrom? kind r c.slot (c.content.text ++ more) := by
  induction n using Tree.induction generalizing parent above path with
  | step slot content children ih =>
    have htext : content.text ≠ [] := (hsound _ Tree.top_mem).content.ne_nil
    have hnode : t.node? slot = some ⟨content, parent, children.map Tree.slot⟩ := h.node?_eq
    rcases Tree.mem_cells.mp hc with rfl | ⟨m, hm, hbelow⟩
    · obtain rfl : content.text = path := List.append_cancel_left hpath
      rfl
    · obtain ⟨tail, htail⟩ := Tree.child_of_beneath hsound hm hbelow
      obtain rfl : path = content.text ++ m.content.label :: tail := by
        rw [hpath, List.append_assoc] at htail
        exact List.append_cancel_left htail
      have hfind : children.find? (fun m' => m'.content.label == m.content.label) = some m :=
        Assoc.find?_eq_some_of_only hm (beq_self_eq_true _) fun m' hm' hlabel =>
          Tree.eq_of_label_eq (hsound _ Tree.top_mem) hm' hm (eq_of_beq hlabel)
      have hchild : t.childLabelled? slot (labelOf (m.content.label :: tail ++ more)) =
          some (some m.slot) :=
        (h.child?_eq _).trans (congrArg (some ∘ Option.map Tree.slot) hfind)
      rw [List.append_assoc]
      refine (insertFrom?_through hnode htext kind r _).trans ?_
      rw [if_neg (by simp), hchild, Option.bind_some]
      refine ih m hm (h.child hm) (fun d hd => hsound d (Tree.mem_cells_of_child hm hd)) hbelow ?_
      rw [hpath, ← List.append_assoc]
      rfl

/-- To go on from the node at which a front has ended is to put the path in from the root. -/
theorem Holds.insertFrom?_eq_insert? {t : Trie H} {n : Tree H} (h : t.Holds n) {pre own : List Char}
    {slot : Slot} (hn : Grown pre n) (hends : EndsAt n pre slot own) (kind : Kind)
    (r : Option (Registration H)) (stretch : List Char) :
    t.insertFrom? kind r slot (own ++ stretch) = t.insert? kind (pre ++ stretch) r := by
  cases hends with
  | start => rfl
  | @node c hc =>
    rcases hn with ⟨hpre, rfl⟩ | hn
    · rcases Tree.mem_cells.mp hc with rfl | ⟨m, hm, -⟩
      · rfl
      · cases hm
    · rw [insert?, ← show n.slot = root from h.rooted]
      exact (h.stored.insertFrom?_below hn.sound hc kind r (List.nil_append _).symm stretch).symm

theorem Holds.plantFrom?_eq {stops : List Stop} {last : Stop} {t : Trie H} {n : Tree H}
    {pre own left : List Char} {slot : Slot} (h : t.Holds n) (hn : Grown pre n)
    (hends : EndsAt n pre slot own) (hchain : Stop.Chain pre (stops ++ [last]))
    (hleft : last.path = pre ++ left) (r : Registration H) :
    plantFrom? last.kind r t slot own (utf8Length pre) left (stops.map Stop.cut) =
      (t.scaffold? stops).bind fun t =>
        (t.insert? last.kind last.path (some r)).map Prod.snd := by
  induction stops generalizing t n pre own left slot with
  | nil =>
    rw [List.map_nil, plantFrom?, h.insertFrom?_eq_insert? hn hends, ← hleft]
    rfl
  | cons stop rest ih =>
    cases hchain with
    | @cons _ stretch kind _ hadds hchain =>
      obtain ⟨back, hback⟩ :=
        hchain.exists_append (List.mem_append_right _ (List.mem_singleton_self last))
      obtain rfl : left = stretch ++ back := by
        rw [hleft, List.append_assoc] at hback
        exact List.append_cancel_left hback
      obtain ⟨slot', t₁, n₁, hinsert, hholds, hgrowing, -, hplanted⟩ :=
        h.stretch hn hadds (r := none) (by intro reg hreg; cases hreg)
      obtain ⟨c, hc, rfl, hpath, -⟩ := hplanted.reached
      have hcut : cut? (stretch ++ back) (utf8Length (pre ++ stretch) - utf8Length pre) =
          some (stretch, back) := by
        rw [utf8Length_append, Nat.add_sub_cancel_left]
        exact cut?_append stretch back
      have hends' : EndsAt n₁ (pre ++ stretch) c.slot c.content.text := hpath ▸ EndsAt.node hc
      have hnext := ih hholds (.inr hgrowing) hends' hchain hback
      rw [scaffold?_cons hinsert, ← hnext, List.map_cons, plantFrom?, Stop.cut, hcut]
      simp only [Option.bind_eq_bind, Option.bind_some, h.insertFrom?_eq_insert? hn hends, hinsert,
        hholds.stored c hc]
      rfl

/-- The trees of tries: there are no routes, or every node is sound and tight. -/
inductive Formed : Tree H → Prop
  | bare : Formed bare
  | full {n : Tree H} : (∀ c ∈ n.all, c.Sound) → (∀ c ∈ n.all, c.Tight) → Formed n

theorem Formed.grown {n : Tree H} (h : Formed n) : Grown [] n := by
  cases h with
  | bare => exact .inl ⟨rfl, rfl⟩
  | full hsound htight =>
    exact .inr ⟨hsound, fun c hc _ => htight c hc, fun hne => (hne rfl).elim⟩

/-- A pattern's path may as well be put in from the root each time, up to each of its stops. -/
theorem Holds.plant?_eq {t : Trie H} {n : Tree H} (h : t.Holds n) (hn : Formed n)
    {pattern : Pattern} (hstaged : pattern.Staged) (r : Registration H) :
    t.plant? pattern r = (t.scaffold? pattern.scaffolds).bind fun t =>
      (t.insert? pattern.terminal pattern.path (some r)).map Prod.snd := by
  rw [plant?, hstaged.cuts]
  exact h.plantFrom?_eq hn.grown .start hstaged.chain rfl r

/-- A pattern's route is put in, and the other routes stay as they are. -/
theorem Holds.plant {t : Trie H} {n : Tree H} (h : t.Holds n) (hn : Formed n) {pattern : Pattern}
    {r : Registration H} (hstaged : pattern.Staged)
    (hr : Names r.pattern r.params pattern.path) :
    ∃ t' n', t.plant? pattern r = some t' ∧ t'.Holds n' ∧
      (∀ c ∈ n'.all, c.Sound) ∧ (∀ c ∈ n'.all, c.Tight) ∧
      Registered (some r) pattern.path n.routes n'.routes := by
  obtain ⟨t₁, n₁, pre, hscaffold, hholds, hgrown, hlast, hroutes⟩ :=
    h.scaffold hn.grown hstaged.chain
  obtain ⟨stretch, hpath, hadds⟩ : ∃ stretch, pattern.path = pre ++ stretch ∧
      Stop.Adds pre pattern.terminal stretch := by
    generalize hstop : (⟨pattern.terminal, pattern.path⟩ : Stop) = stop at hlast
    cases hlast with
    | cons hadds _ =>
      obtain ⟨hkind, hpath⟩ := Stop.mk.inj hstop
      exact ⟨_, hpath, hkind ▸ hadds⟩
  rw [hpath] at hr
  obtain ⟨slot, t', n', hinsert, hholds', hgrowing, hregistered, hplanted⟩ :=
    hholds.stretch hgrown hadds (r := some r) (by intro reg hreg; cases hreg; exact hr)
  refine ⟨t', n', ?_, hholds', hgrowing.sound, hplanted.tight hgrowing, ?_⟩
  · rw [h.plant?_eq hn hstaged, hscaffold, Option.bind_some, hpath, hinsert]
    rfl
  · rw [hpath, ← hroutes]
    exact hregistered

end Trie
end Routing

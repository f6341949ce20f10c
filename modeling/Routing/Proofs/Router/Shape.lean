import Routing.Proofs.Router.Reachable
import Routing.Proofs.Trie.Walk

/-! The shape of a router's trie.

What a lookup may rely on, read off the stored nodes: a trie without routes is a blank root, and
in any other every node in use is as its kind wants it, can be told from its siblings, carries a
route that belongs to its path, and is there for a reason (`Node.Shaped`). The shape holds
whatever has been added and removed (`Router.after_shaped`). -/
namespace Routing
namespace Trie
variable {H : Type}

/-- A node in use, as the others find it. -/
structure Node.Shaped (t : Trie H) (slot : Slot) (n : Node H) : Prop where
  text : n.text ≠ []
  label : n.text.head? = some n.label
  /-- No two children have the same label. -/
  siblings : n.children.Pairwise fun a b => (t.node? a).map (·.label) ≠ (t.node? b).map (·.label)
  static : n.kind = .static → ':' ∉ n.text ∧ '*' ∉ n.text
  param : n.kind = .param → n.text = [':'] ∧ n.children.length ≤ 1 ∧
    ∀ s ∈ n.children, ∃ m, t.node? s = some m ∧ m.kind = .static ∧ m.text.head? = some '/'
  wildcard : n.kind = .wildcard → n.text = ['*'] ∧ n.children = []
  pattern : n.pattern ≠ "" ↔ n.hasRoute = true
  route : n.hasRoute = true → ∃ path pattern, t.pathOf? slot = some path ∧
    Pattern.parse n.pattern = .ok pattern ∧ pattern.path = path ∧
    n.params.length = path.count ':' + path.count '*'
  leaf : n.children = [] → n.hasRoute = true
  /-- A node without a route and its only child are not both static. -/
  chain : n.hasRoute = false → n.kind = .static →
    ∀ s m, n.children = [s] → t.node? s = some m → m.kind ≠ .static

/-- A trie without routes: its only node is a blank root. -/
structure Bare (t : Trie H) : Prop where
  root : t.node? root = some .blank
  only : ∀ slot, t.Live slot → slot = Trie.root

/-- A trie with routes. -/
structure Shaped (t : Trie H) : Prop where
  root : ∃ n, t.node? root = some n ∧ n.kind = .static ∧ n.text.head? = some '/'
  node : ∀ slot, t.Live slot → ∃ n, t.node? slot = some n ∧ n.Shaped t slot

theorem Content.Sound.head?_text {c : Content H} {path : List Char} (h : c.Sound path) :
    c.text.head? = some c.label := by
  obtain ⟨text, htext⟩ := h.text_eq
  rw [htext]
  rfl

section node
variable {t : Trie H} {C : Context H} {slot : Slot} {c : Content H} {children : List (Tree H)}
  (h : t.Holds (C.plug (.node slot c children)))
  (hsound : ∀ e ∈ (C.plug (.node slot c children)).all, e.Sound)
  (htight : ∀ e ∈ (C.plug (.node slot c children)).all, e.Tight)
include h hsound

theorem Holds.child_node {m : Tree H} (hm : m ∈ children) :
    t.node? m.slot = some ⟨m.content, some slot, m.children.map Tree.slot⟩ ∧
      m.content.text.head? = some m.content.label := by
  have hcell : m.top (C.above ++ c.text) (some slot) ∈ (C.plug (.node slot c children)).all :=
    Context.mem_of_part (Tree.mem_cells_of_child hm Tree.top_mem)
  exact ⟨(h.part.child hm).node?_eq, (hsound _ hcell).content.head?_text⟩

theorem Holds.node_siblings : (children.map Tree.slot).Pairwise fun a b =>
    (t.node? a).map (·.label) ≠ (t.node? b).map (·.label) := by
  have hlabels := (hsound _ Context.top_mem).labels
  rw [Tree.top_kids, List.map_map] at hlabels
  rw [List.pairwise_map]
  refine (List.pairwise_map.mp hlabels).imp_of_mem fun ha hb hne => ?_
  rw [(h.child_node hsound ha).1, (h.child_node hsound hb).1]
  exact fun heq => hne (Option.some.inj heq)

theorem Holds.node_param (hkind : c.kind = .param) :
    c.text = [':'] ∧ (children.map Tree.slot).length ≤ 1 ∧
      ∀ s ∈ children.map Tree.slot, ∃ m, t.node? s = some m ∧ m.kind = .static ∧
        m.text.head? = some '/' := by
  have hself := hsound _ Context.top_mem
  have hfits : c.kind.Fits c.text := hself.content.fits
  have hkids : c.kind.Admits (children.map Tree.kid) := hself.kids
  rw [hkind] at hfits hkids
  refine ⟨hfits, ?_, fun s hs => ?_⟩
  · have hlength := Kind.length_le_one hkids hself.labels
    rw [List.length_map] at hlength
    rw [List.length_map]
    exact hlength
  · obtain ⟨m, hm, rfl⟩ := List.mem_map.mp hs
    obtain ⟨hstatic, hslash⟩ := hkids m.kid (List.mem_map_of_mem hm)
    obtain ⟨hnode, hhead⟩ := h.child_node hsound hm
    exact ⟨_, hnode, hstatic, hhead.trans (congrArg some hslash)⟩

include htight in
theorem Holds.node_chain (hroute : c.hasRoute = false) (hkind : c.kind = .static) (s : Slot)
    (m : Node H) (hone : children.map Tree.slot = [s]) (hm : t.node? s = some m) :
    m.kind ≠ .static := by
  rcases htight _ Context.top_mem with hroute' | ⟨-, hkinds⟩
  · exact absurd (hroute'.symm.trans hroute) Bool.noConfusion
  · obtain ⟨only, rfl, rfl⟩ := List.map_eq_singleton_iff.mp hone
    have honly := (h.child_node hsound (List.mem_singleton_self _)).1
    obtain rfl := Option.some.inj (honly.symm.trans hm)
    exact fun hstatic => hkinds hkind (congrArg (fun k => [k]) hstatic)

include htight in
theorem Holds.nodeShaped : (⟨c, C.parent, children.map Tree.slot⟩ : Node H).Shaped t slot := by
  have hself := hsound _ Context.top_mem
  have hcontent : c.Sound (C.above ++ c.text) := hself.content
  have hfits := hcontent.fits
  exact {
    text := hcontent.ne_nil
    label := hcontent.head?_text
    siblings := h.node_siblings hsound
    static := by
      intro hkind
      rw [show c.kind = .static from hkind] at hfits
      exact hfits
    param := h.node_param hsound
    wildcard := by
      intro hkind
      have hkids : c.kind.Admits (children.map Tree.kid) := hself.kids
      rw [show c.kind = .wildcard from hkind] at hfits hkids
      exact ⟨hfits, by rw [List.map_eq_nil_iff.mp hkids]; rfl⟩
    pattern := by
      show c.pattern ≠ "" ↔ c.hasRoute = true
      cases hroute : c.hasRoute with
      | true => exact iff_of_true (hcontent.route hroute).ne_empty rfl
      | false => exact iff_of_false (not_not.mpr (hcontent.plain hroute).2.1) Bool.false_ne_true
    route := by
      intro hroute
      have hnames := hcontent.route hroute
      obtain ⟨pattern, hparse, hpath⟩ := hnames.parse
      exact ⟨_, pattern, h.pathOf?_eq, hparse, hpath, hnames.length⟩
    leaf := by
      intro hnil
      refine (htight _ Context.top_mem).resolve_right ?_
      rintro ⟨hne, -⟩
      exact hne (List.map_eq_nil_iff.mpr (List.map_eq_nil_iff.mp hnil))
    chain := h.node_chain hsound htight }

end node

theorem Holds.shaped {t : Trie H} {n : Tree H} (h : t.Holds n) (hformed : Formed n) :
    t.Bare ∨ t.Shaped := by
  cases hformed with
  | bare =>
    refine .inl ⟨h.node?_eq (C := .hole), fun slot hlive => ?_⟩
    have hslot := h.live_iff.mp hlive
    rw [Tree.slots_eq] at hslot
    exact List.mem_singleton.mp hslot
  | full hsound htight =>
    refine .inr ⟨?_, fun slot hlive => ?_⟩
    · have htop := hsound _ Tree.top_mem
      refine ⟨_, h.rooted ▸ h.node?_eq (C := .hole), (htop.root rfl).1, ?_⟩
      exact htop.content.head?_text.trans (congrArg some (htop.root rfl).2)
    · obtain ⟨C, ⟨_, c, children⟩, rfl, rfl⟩ := Context.exists_plug_of_slot (h.live_iff.mp hlive)
      exact ⟨_, h.node?_eq, h.nodeShaped hsound htight⟩

end Trie

/-- Every router there can be has a trie of this shape. -/
theorem Router.after_shaped {H : Type} (notFound notAllowed : H) (calls : List (Call H)) :
    (Router.after notFound notAllowed calls).trie.Bare ∨
      (Router.after notFound notAllowed calls).trie.Shaped := by
  obtain ⟨n, hholds, hformed⟩ := Router.after_valid notFound notAllowed calls
  exact hholds.shaped hformed

end Routing

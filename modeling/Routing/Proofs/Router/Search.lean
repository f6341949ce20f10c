import Routing.Proofs.Router.Lookup
import Routing.Proofs.Trie.Course

/-! The search of a router.

Whatever has been added and removed, the search with marks is the recursion that tries each kind
of child to the end before the next (`Router.search_eq_enter`), and its turns are as many as six
for each node and one, however long the path is (`Router.search_course`). -/
namespace Routing
open Trie
variable {H : Type}

namespace Router

/-- The search does what the recursion does, wherever captures go: it ends at the same node, and
what is captured are the texts of the way there. And the recursion loses no way: it gives up where
there is none at all. -/
theorem search_eq_enter (notFound notAllowed : H) (calls : List (Call H)) :
    ∃ n, (after notFound notAllowed calls).trie.Holds n ∧
      (∀ {σ : Type} [Sink σ] [LawfulSink σ] (path : List Char) (captures : σ),
        Sink.size captures = 0 →
        (after notFound notAllowed calls).trie.search? path captures =
          some (match n.enter path with
            | some (m, texts) => (some m.slot, pushed captures texts)
            | none => (none, captures))) ∧
      ∀ path, match n.enter path with
        | some (m, texts) => n.Way path m texts
        | none => ∀ m texts, ¬ n.Way path m texts := by
  obtain ⟨n, hholds, hn⟩ := after_valid notFound notAllowed calls
  refine ⟨n, hholds, fun path captures hsize => hholds.search?_eq_enter hn path hsize, ?_⟩
  intro path
  cases hfound : n.enter path with
  | none => exact hn.no_way hfound
  | some found => exact Tree.way_of_enter hfound

/-- Two ways below the static child come to nothing before the parameter beside it is taken, and
what they captured does not stay. -/
theorem search_eq_enter_nested : ∃ n m,
    (after 404 405 [.add "" "GET" "/a/b/c/x" 1, .add "" "GET" "/a/b/:p/y" 2,
      .add "" "GET" "/a/:q/c/z" 3]).trie.Holds n ∧
    n.Way "/a/b/c/z".toList m [['b']] ∧
    (after 404 405 [.add "" "GET" "/a/b/c/x" 1, .add "" "GET" "/a/b/:p/y" 2,
      .add "" "GET" "/a/:q/c/z" 3]).trie.search? "/a/b/c/z".toList Params.empty =
        some (some m.slot, ⟨[], ["b"]⟩) ∧
    (after 404 405 [.add "" "GET" "/a/b/c/x" 1, .add "" "GET" "/a/b/:p/y" 2,
      .add "" "GET" "/a/:q/c/z" 3]).trie.search? "/a/b/c/z".toList 0 = some (some m.slot, 1) := by
  obtain ⟨n, hholds, hsearch, hways⟩ := search_eq_enter 404 405 [.add "" "GET" "/a/b/c/x" 1,
    .add "" "GET" "/a/b/:p/y" 2, .add "" "GET" "/a/:q/c/z" 3]
  have hparams := hsearch "/a/b/c/z".toList Params.empty rfl
  have hcount := hsearch "/a/b/c/z".toList 0 rfl
  have hrun : ((after 404 405 [.add "" "GET" "/a/b/c/x" 1, .add "" "GET" "/a/b/:p/y" 2,
      .add "" "GET" "/a/:q/c/z" 3]).trie.search? "/a/b/c/z".toList Params.empty).map Prod.snd =
        some ⟨[], ["b"]⟩ := by decide +kernel
  have hway := hways "/a/b/c/z".toList
  cases hfound : n.enter "/a/b/c/z".toList with
  | none =>
    rw [hparams, hfound] at hrun
    cases hrun
  | some found =>
    obtain ⟨m, texts⟩ := found
    rw [hfound] at hparams hcount hway
    rw [hparams] at hrun
    have hcaptures : pushed Params.empty texts = ⟨[], ["b"]⟩ := Option.some.inj hrun
    have htexts : texts.map String.ofList = ["b"] := by
      rw [Params.pushed_eq] at hcaptures
      exact congrArg Params.values hcaptures
    obtain ⟨text, rfl, htext⟩ := List.map_eq_singleton_iff.mp htexts
    obtain rfl : text = ['b'] := String.ofList_injective htext
    exact ⟨n, m, hholds, hway, hparams.trans rfl, hcount.trans rfl⟩

/-- The search comes to its end within six turns for each node and one. It goes down to a node
once at most, takes each step at it once at most, and leaves two marks at it at most. -/
theorem search_course (notFound notAllowed : H) (calls : List (Call H)) {σ : Type} [Sink σ]
    (path : List Char) (captures : σ) :
    ∃ (live : List Slot) (course : List (Search σ × Search.Turn σ)) (found : Option Slot)
      (left : σ),
    (∀ slot, slot ∈ live ↔ (after notFound notAllowed calls).trie.Live slot) ∧ live.Nodup ∧
    live.length = (after notFound notAllowed calls).trie.nodeCount ∧
    Search.Course (after notFound notAllowed calls).trie (Search.start path captures) course
      found left ∧
    course.length ≤ 6 * live.length + 1 ∧
    (after notFound notAllowed calls).trie.search? path captures = some (
      if (after notFound notAllowed calls).trie.isEmpty then (none, captures) else (found, left)) ∧
    (root :: course.filterMap fun turn => turn.1.down? turn.2).Nodup ∧
    (course.filterMap fun turn => turn.1.step?).Nodup ∧
    ∀ slot, ((course.filterMap fun turn => turn.1.mark? turn.2).filter
      (·.slot = slot)).length ≤ 2 := by
  obtain ⟨n, hholds, -⟩ := after_valid notFound notAllowed calls
  obtain ⟨course, found, left, hcourse, hlength, hdone⟩ := hholds.course path captures
  have hnodup : n.slots.Nodup := hholds.nodup.of_append_left
  have hlive : n.slots.length = (after notFound notAllowed calls).trie.nodeCount := by
    rw [Tree.slots, List.length_map, hholds.nodeCount_eq]
  refine ⟨n.slots, course, found, left, fun slot => hholds.live_iff.symm, hnodup, hlive, hcourse,
    hlive ▸ hlength, ?_, nodup_downs hnodup hdone, nodup_steps hnodup hdone,
    length_marks_le hnodup hdone⟩
  rw [search?, hcourse.run?_eq hlength]
  split <;> rfl

end Router

end Routing

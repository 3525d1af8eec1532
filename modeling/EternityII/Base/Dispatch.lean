-- SUMMARY: Jobs handed to queues by their keys: the jobs of a key are done in the order in which they are given.
import Mathlib.Data.List.Basic
import Mathlib.Logic.Function.Basic
import Mathlib.Tactic.Common

/-- The queues, the oldest job first, and the jobs that have been given and that are done, in their order. -/
structure Dispatch (ι α : Type*) where
  queues : ι → List α
  given : List α
  done : List α

namespace Dispatch

variable {ι κ α : Type*} [DecidableEq ι] [DecidableEq κ] {key : α → κ} {route : κ → ι} {d : Dispatch ι α} {i : ι}

/-- A job goes to the end of the queue of its key. -/
def give (key : α → κ) (route : κ → ι) (d : Dispatch ι α) (a : α) : Dispatch ι α where
  queues := Function.update d.queues (route (key a)) (d.queues (route (key a)) ++ [a])
  given := d.given ++ [a]
  done := d.done

/-- The oldest job of a queue is done. -/
def finish (d : Dispatch ι α) (i : ι) : Dispatch ι α where
  queues := Function.update d.queues i (d.queues i).tail
  given := d.given
  done := d.done ++ (d.queues i).head?.toList

/-- Each queue has jobs of its own keys; the jobs of a key are those that are done, and then those in its queue. -/
structure Ordered (key : α → κ) (route : κ → ι) (d : Dispatch ι α) : Prop where
  routed : ∀ i, ∀ a ∈ d.queues i, route (key a) = i
  inOrder : ∀ k, d.given.filter (fun a => key a = k) =
    d.done.filter (fun a => key a = k) ++ (d.queues (route k)).filter fun a => key a = k

omit [DecidableEq ι] in
/-- When the queues are empty, the jobs of a key are done in the order in which they were given. -/
theorem Ordered.of_empty (h : Ordered key route d) (hempty : ∀ i, d.queues i = []) (k : κ) :
    d.given.filter (fun a => key a = k) = d.done.filter fun a => key a = k := by
  rw [h.inOrder, hempty, List.filter_nil, List.append_nil]

omit [DecidableEq ι] in
/-- The queues can be dealt out anew when they are empty. -/
theorem Ordered.reroute {d' : Dispatch ι α} (h : Ordered key route d) (hempty : ∀ i, d.queues i = []) (route' : κ → ι)
    (hempty' : ∀ i, d'.queues i = []) (hgiven : d'.given = d.given) (hdone : d'.done = d.done) : Ordered key route' d' := by
  refine ⟨fun i a ha => ?_, fun k => ?_⟩
  · rw [hempty' i] at ha
    exact absurd ha List.not_mem_nil
  · rw [hempty', hgiven, hdone, h.of_empty hempty, List.filter_nil, List.append_nil]

theorem Ordered.give (h : Ordered key route d) (a : α) : Ordered key route (d.give key route a) := by
  refine ⟨fun i b hb => ?_, fun k => ?_⟩ <;> dsimp only [Dispatch.give] at *
  · by_cases heq : i = route (key a)
    · subst heq
      rw [Function.update_self] at hb
      obtain hb | hb := List.mem_append.mp hb
      · exact h.routed _ b hb
      · rw [List.mem_singleton.mp hb]
    · rw [Function.update_of_ne heq] at hb
      exact h.routed i b hb
  · rw [List.filter_append, h.inOrder]
    by_cases heq : route k = route (key a)
    · rw [heq, Function.update_self, List.filter_append, List.append_assoc]
    · have hne : key a ≠ k := fun hk => heq (by rw [hk])
      rw [Function.update_of_ne heq, List.filter_singleton, decide_eq_false hne, Bool.cond_false, List.append_nil]

theorem Ordered.finish (h : Ordered key route d) (i : ι) : Ordered key route (d.finish i) := by
  refine ⟨fun j b hb => ?_, fun k => ?_⟩ <;> dsimp only [Dispatch.finish] at *
  · by_cases heq : j = i
    · subst heq
      rw [Function.update_self] at hb
      exact h.routed j b (List.mem_of_mem_tail hb)
    · rw [Function.update_of_ne heq] at hb
      exact h.routed j b hb
  · rw [h.inOrder, List.filter_append, List.append_assoc]
    congr 1
    by_cases heq : route k = i
    · rw [heq, Function.update_self, ← List.filter_append]
      cases d.queues i <;> rfl
    · rw [Function.update_of_ne heq]
      cases hqueue : d.queues i with
      | nil => rfl
      | cons a rest =>
        have hrouted : route (key a) = i := h.routed i a (by rw [hqueue]; exact List.mem_cons_self)
        have hne : key a ≠ k := fun hk => heq (by rw [← hk, hrouted])
        rw [List.head?_cons, Option.toList_some, List.filter_singleton, decide_eq_false hne, Bool.cond_false, List.nil_append]

end Dispatch

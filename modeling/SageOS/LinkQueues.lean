import SageOS.LinkedChain

/-!
# Queues that share their links

A family of singly linked queues over nodes with one link each: `ends i` are the first and the last
node of queue `i`. The family is sound when every queue is a finite list that ends at its last node
and no node is in two places. Taking the first node out keeps it sound; so does appending a node,
if it is in no queue.
-/
namespace LinkQueues
open LinkedChain List Function
variable {α ι : Type}

structure Queues (next : α → Option α) (ends : ι → Option α × Option α) (lists : ι → List α) :
    Prop where
  linked : ∀ i, Linked next (ends i).1 (lists i)
  last : ∀ i, (ends i).2 = (lists i).getLast?
  disjoint : ∀ i j, i ≠ j → (lists i).Disjoint (lists j)

/-- The links after `t` is put behind `last`. -/
def pushLink [DecidableEq α] (next : α → Option α) (last : Option α) (t : α) : α → Option α :=
  last.elim (update next t none) fun w =>
    update (update next t none) w (some t)

namespace Queues
variable {next : α → Option α} {ends : ι → Option α × Option α} {lists : ι → List α} {i : ι}
  {t w : α}

theorem nodup (h : Queues next ends lists) (i : ι) : (lists i).Nodup := (h.linked i).nodup

theorem pop [DecidableEq ι] (h : Queues next ends lists) (hw : (ends i).1 = some w) : Queues next
      (update ends i (next w, if next w = none then none else (ends i).2))
      (update lists i (lists i).tail) := by
  have hlinked := h.linked i
  have hlast := h.last i
  cases hl : lists i with
  | nil =>
    rw [hl, linked_nil, hw] at hlinked
    cases hlinked
  | cons a rest =>
    rw [hl, linked_cons, hw] at hlinked
    obtain ⟨ha, hrest⟩ := hlinked
    obtain rfl := Option.some.inj ha
    have hsub : ∀ j, ∀ x ∈ update lists i rest j, x ∈ lists j := by
      intro j x hx
      by_cases hj : j = i
      · subst hj
        rw [update_self] at hx
        exact hl ▸ mem_cons_of_mem _ hx
      · rwa [update_of_ne hj] at hx
    refine ⟨fun j => ?_, fun j => ?_, fun j j' hne x hx hx' => ?_⟩
    · by_cases hj : j = i
      · subst hj
        rw [update_self, update_self]
        exact hrest
      · rw [update_of_ne hj, update_of_ne hj]
        exact h.linked j
    · by_cases hj : j = i
      · subst hj
        rw [update_self, update_self, hlast, hl]
        cases rest with
        | nil => simpa using hrest
        | cons b rest =>
          rw [linked_cons] at hrest
          simp [hrest.1]
      · rw [update_of_ne hj, update_of_ne hj]
        exact h.last j
    · exact h.disjoint j j' hne (hsub j x hx) (hsub j' x hx')

theorem mem_of_last (h : Queues next ends lists) (hw : (ends i).2 = some w) : w ∈ lists i := by
  rw [h.last i] at hw
  exact mem_of_getLast? hw

variable [DecidableEq α]

theorem pushLink_of_ne {last : Option α} {a : α} (hat : a ≠ t) (hlast : last ≠ some a) :
    pushLink next last t a = next a := by
  cases last with
  | none => exact update_of_ne hat _ _
  | some w =>
    have haw : a ≠ w := fun h => hlast (congrArg some h.symm)
    exact (update_of_ne haw _ _).trans (update_of_ne hat _ _)

theorem pushLink_self {last : Option α} (ht : last ≠ some t) : pushLink next last t t = none := by
  cases last with
  | none => exact update_self _ _ _
  | some w =>
    have htw : t ≠ w := fun h => ht (congrArg some h.symm)
    exact (update_of_ne htw _ _).trans (update_self _ _ _)

theorem push_linked (h : Queues next ends lists) (ht : t ∉ lists i) :
    Linked (pushLink next (ends i).2 t) (if (ends i).1 = none then some t else (ends i).1)
      (lists i ++ [t]) := by
  have hlinked := h.linked i
  have hlast := h.last i
  have hself : pushLink next (ends i).2 t t = none :=
    pushLink_self fun hw => ht (h.mem_of_last hw)
  rcases eq_nil_or_concat (lists i) with hl | ⟨l, w, hl⟩
  · rw [hl] at hlinked ⊢
    rw [if_pos (linked_nil.mp hlinked)]
    exact linked_cons.mpr ⟨rfl, hself⟩
  · rw [concat_eq_append] at hl
    rw [hl] at hlinked ⊢
    rw [hl, getLast?_concat] at hlast
    have hhead : (ends i).1 ≠ none := by
      intro hnone
      rw [hnone] at hlinked
      cases l <;> cases (linked_cons.mp hlinked).1
    rw [if_neg hhead, append_assoc]
    apply hlinked.extend
    · intro a ha
      have hnodup := hl ▸ h.nodup i
      apply pushLink_of_ne
      · rintro rfl
        exact ht (hl ▸ mem_append_left _ ha)
      · rw [hlast]
        rintro hwa
        obtain rfl := Option.some.inj hwa
        exact (nodup_append.mp hnodup).2.2 w ha w (mem_singleton_self w) rfl
    · rw [hlast]
      exact update_self _ _ _
    · exact hself

omit [DecidableEq α] in
theorem mem_update [DecidableEq ι] {j : ι} {x : α}
    (hx : x ∈ update lists i (lists i ++ [t]) j) : x ∈ lists j ∨ j = i ∧ x = t := by
  by_cases hj : j = i
  · subst hj
    rw [update_self] at hx
    rcases mem_append.mp hx with hx | hx
    · exact .inl hx
    · exact .inr ⟨rfl, mem_singleton.mp hx⟩
  · rw [update_of_ne hj] at hx
    exact .inl hx

theorem push [DecidableEq ι] (h : Queues next ends lists) (ht : ∀ j, t ∉ lists j) :
    Queues (pushLink next (ends i).2 t)
      (update ends i (if (ends i).1 = none then some t else (ends i).1, some t))
      (update lists i (lists i ++ [t])) := by
  refine ⟨fun j => ?_, fun j => ?_, fun j j' hne x hx hx' => ?_⟩
  · by_cases hj : j = i
    · subst hj
      rw [update_self, update_self]
      exact h.push_linked (ht j)
    · rw [update_of_ne hj, update_of_ne hj]
      apply (h.linked j).congr
      intro a ha
      apply pushLink_of_ne
      · rintro rfl
        exact ht j ha
      · exact fun hw => h.disjoint j i hj ha (h.mem_of_last hw)
  · by_cases hj : j = i
    · subst hj
      rw [update_self, update_self, getLast?_concat]
    · rw [update_of_ne hj, update_of_ne hj]
      exact h.last j
  · rcases mem_update hx with hold | ⟨hji, hxt⟩
    · rcases mem_update hx' with hold' | ⟨-, hxt⟩
      · exact h.disjoint j j' hne hold hold'
      · exact ht j (hxt ▸ hold)
    · rcases mem_update hx' with hold' | ⟨hji', -⟩
      · exact ht j' (hxt ▸ hold')
      · exact hne (hji.trans hji'.symm)

end Queues
end LinkQueues

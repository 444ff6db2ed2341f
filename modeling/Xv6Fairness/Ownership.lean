import Mathlib.Data.List.Nodup
import Mathlib.Order.Nat

/-!
# Ownership of numbered resources

Resources below a limit are in use or free. The first ones are always in use; each other one in use
is named by exactly one of a family of slots, in which 0 stands for no resource. Slots may be filled
with free resources and emptied again.
-/

namespace Ownership

variable {κ : Type*} {lo hi b : ℕ} {used used' : ℕ → Prop} {refs refs' : κ → ℕ} {k l : κ}

structure Owns (lo hi : ℕ) (used : ℕ → Prop) (refs : κ → ℕ) : Prop where
  pos : 0 < lo
  used_iff : ∀ b < hi, used b ↔ b < lo ∨ ∃ k, refs k = b
  range : ∀ k, refs k ≠ 0 → lo ≤ refs k ∧ refs k < hi
  unique : ∀ k l, refs k ≠ 0 → refs k = refs l → k = l

theorem Owns.congr (h : Owns lo hi used refs) (hused : ∀ b < hi, used' b ↔ used b)
    (hrefs : ∀ k, refs' k = refs k) : Owns lo hi used' refs' := by
  have heq : refs' = refs := funext hrefs
  rw [heq]
  exact ⟨h.pos, fun b hb => (hused b hb).trans (h.used_iff b hb), h.range, h.unique⟩

theorem Owns.used_refs (h : Owns lo hi used refs) (hk : refs k ≠ 0) : used (refs k) :=
  (h.used_iff _ (h.range k hk).2).mpr (.inr ⟨k, rfl⟩)

theorem Owns.reindex {κ' : Type*} {refs' : κ' → ℕ} (h : Owns lo hi used refs) (g : κ' → κ)
    (hg : ∀ k, refs' k ≠ 0 → refs (g k) = refs' k)
    (hinj : ∀ k l, refs' k ≠ 0 → refs' l ≠ 0 → g k = g l → k = l)
    (hsurj : ∀ k, refs k ≠ 0 → ∃ l, refs' l = refs k) : Owns lo hi used refs' := by
  refine ⟨h.pos, fun b hb => (h.used_iff b hb).trans ?_, fun k hk => ?_, fun k l hk hkl => ?_⟩
  · constructor
    · rintro (hlo | ⟨k, rfl⟩)
      · exact .inl hlo
      · by_cases hk : refs k = 0
        · exact .inl (hk ▸ h.pos)
        · exact .inr (hsurj k hk)
    · rintro (hlo | ⟨k, rfl⟩)
      · exact .inl hlo
      · by_cases hk : refs' k = 0
        · exact .inl (hk ▸ h.pos)
        · exact .inr ⟨g k, hg k hk⟩
  · have heq := hg k hk
    rw [← heq] at hk ⊢
    exact h.range _ hk
  · have hl : refs' l ≠ 0 := hkl ▸ hk
    refine hinj k l hk hl (h.unique _ _ ?_ ?_)
    · rwa [hg k hk]
    · rw [hg k hk, hg l hl, hkl]

theorem Owns.used_congr (h : Owns lo hi used refs) (h' : Owns lo hi used' refs) (hb : b < hi) :
    used' b ↔ used b :=
  (h'.used_iff b hb).trans (h.used_iff b hb).symm

theorem Owns.lo_le (h : Owns lo hi used refs) (hb : b < hi) (hfree : ¬ used b) : lo ≤ b := by
  by_contra hlo
  exact hfree ((h.used_iff b hb).mpr (.inl (not_le.mp hlo)))

theorem Owns.ne_of_free (h : Owns lo hi used refs) (hb : b < hi) (hfree : ¬ used b) :
    refs k ≠ b := fun hk => hfree ((h.used_iff b hb).mpr (.inr ⟨k, hk⟩))

/-- Every resource between the limits is free or has exactly one use. -/
structure Accounted (lo hi : ℕ) (free : List ℕ) (held : κ → Option ℕ) : Prop where
  nodup : free.Nodup
  range : ∀ b ∈ free, lo ≤ b ∧ b < hi
  held_range : ∀ k b, held k = some b → lo ≤ b ∧ b < hi ∧ b ∉ free
  unique : ∀ k l b, held k = some b → held l = some b → k = l
  covered : ∀ b, lo ≤ b → b < hi → b ∉ free → ∃ k, held k = some b

theorem Accounted.take {free free' : List ℕ} {held held' : κ → Option ℕ}
    (h : Accounted lo hi free held)
    (hnodup : free'.Nodup) (hsub : ∀ b ∈ free', b ∈ free)
    (hold : ∀ k b, held k = some b → held' k = some b)
    (hnew : ∀ k b, held' k = some b → held k = some b ∨ b ∈ free ∧ b ∉ free')
    (hunique : ∀ k l b, b ∈ free → held' k = some b → held' l = some b → k = l)
    (hcovered : ∀ b ∈ free, b ∉ free' → ∃ k, held' k = some b) : Accounted lo hi free' held' := by
  refine ⟨hnodup, fun b hb => h.range b (hsub b hb), fun k b hk => ?_, fun k l b hk hl => ?_,
    fun b hlo hhi hb => ?_⟩
  · rcases hnew k b hk with hk | ⟨hfree, hb⟩
    · obtain ⟨hlo, hhi, hb⟩ := h.held_range k b hk
      exact ⟨hlo, hhi, fun hmem => hb (hsub b hmem)⟩
    · exact ⟨(h.range b hfree).1, (h.range b hfree).2, hb⟩
  · by_cases hfree : b ∈ free
    · exact hunique k l b hfree hk hl
    · have hk' := (hnew k b hk).resolve_right fun hb => hfree hb.1
      have hl' := (hnew l b hl).resolve_right fun hb => hfree hb.1
      exact h.unique k l b hk' hl'
  · by_cases hfree : b ∈ free
    · exact hcovered b hfree hb
    · obtain ⟨k, hk⟩ := h.covered b hlo hhi hfree
      exact ⟨k, hold k b hk⟩

theorem Accounted.extend {free free' : List ℕ} {held : κ → Option ℕ} {hi' : ℕ}
    (h : Accounted lo hi free held) (hlo : lo ≤ hi) (hle : hi ≤ hi') (hnodup : free'.Nodup)
    (hfree : ∀ b, b ∈ free' ↔ b ∈ free ∨ hi ≤ b ∧ b < hi') : Accounted lo hi' free' held := by
  refine ⟨hnodup, fun b hb => ?_, fun k b hk => ?_, h.unique, fun b hb hlt hnot => ?_⟩
  · rcases (hfree b).mp hb with hb | ⟨hge, hlt⟩
    · exact ⟨(h.range b hb).1, (h.range b hb).2.trans_le hle⟩
    · exact ⟨hlo.trans hge, hlt⟩
  · obtain ⟨hge, hlt, hnot⟩ := h.held_range k b hk
    refine ⟨hge, hlt.trans_le hle, fun hb => ?_⟩
    rcases (hfree b).mp hb with hb | ⟨hge', -⟩
    · exact hnot hb
    · exact absurd hlt (not_lt.mpr hge')
  · have hnot' : ¬ (b ∈ free ∨ hi ≤ b ∧ b < hi') := fun hb => hnot ((hfree b).mpr hb)
    rw [not_or, not_and_or, not_le] at hnot'
    exact h.covered b hb (hnot'.2.resolve_right (not_not.mpr hlt)) hnot'.1

variable [DecidableEq κ]

theorem Owns.acquire (h : Owns lo hi used refs) (hk : refs k = 0) (hb : b < hi) (hfree : ¬ used b)
    (hused : ∀ c < hi, used' c ↔ c = b ∨ used c) : Owns lo hi used' (Function.update refs k b) := by
  refine ⟨h.pos, fun c hc => ?_, fun l hl => ?_, fun l m hl heq => ?_⟩
  · rw [hused c hc, h.used_iff c hc]
    constructor
    · rintro (rfl | hc | ⟨l, rfl⟩)
      · exact .inr ⟨k, Function.update_self _ _ _⟩
      · exact .inl hc
      · by_cases hl : l = k
        · rw [hl, hk]
          exact .inl h.pos
        · exact .inr ⟨l, Function.update_of_ne hl _ _⟩
    · rintro (hc | ⟨l, rfl⟩)
      · exact .inr (.inl hc)
      · by_cases hl : l = k
        · rw [hl, Function.update_self]
          exact .inl rfl
        · rw [Function.update_of_ne hl]
          exact .inr (.inr ⟨l, rfl⟩)
  · by_cases hlk : l = k
    · rw [hlk, Function.update_self]
      exact ⟨h.lo_le hb hfree, hb⟩
    · rw [Function.update_of_ne hlk] at hl ⊢
      exact h.range l hl
  · by_cases hlk : l = k
    · by_cases hmk : m = k
      · rw [hlk, hmk]
      · rw [hlk, Function.update_self, Function.update_of_ne hmk] at heq
        exact absurd heq.symm (h.ne_of_free hb hfree)
    · by_cases hmk : m = k
      · rw [hmk, Function.update_self, Function.update_of_ne hlk] at heq
        exact absurd heq (h.ne_of_free hb hfree)
      · rw [Function.update_of_ne hlk] at hl heq
        rw [Function.update_of_ne hmk] at heq
        exact h.unique l m hl heq

theorem Owns.release (h : Owns lo hi used refs) (hk : refs k ≠ 0)
    (hused : ∀ c < hi, used' c ↔ c ≠ refs k ∧ used c) :
    Owns lo hi used' (Function.update refs k 0) := by
  refine ⟨h.pos, fun c hc => ?_, fun l hl => ?_, fun l m hl heq => ?_⟩
  · rw [hused c hc, h.used_iff c hc]
    constructor
    · rintro ⟨hne, hc | ⟨l, rfl⟩⟩
      · exact .inl hc
      · refine .inr ⟨l, Function.update_of_ne ?_ _ _⟩
        rintro rfl
        exact hne rfl
    · rintro (hc | ⟨l, rfl⟩)
      · exact ⟨Nat.ne_of_lt (Nat.lt_of_lt_of_le hc (h.range k hk).1), .inl hc⟩
      · by_cases hl : l = k
        · rw [hl, Function.update_self]
          exact ⟨hk.symm, .inl h.pos⟩
        · rw [Function.update_of_ne hl]
          exact ⟨fun heq => hl (h.unique k l hk heq.symm).symm, .inr ⟨l, rfl⟩⟩
  · by_cases hlk : l = k
    · rw [hlk, Function.update_self] at hl
      exact absurd rfl hl
    · rw [Function.update_of_ne hlk] at hl ⊢
      exact h.range l hl
  · by_cases hlk : l = k
    · rw [hlk, Function.update_self] at hl
      exact absurd rfl hl
    · rw [Function.update_of_ne hlk] at hl heq
      by_cases hmk : m = k
      · rw [hmk, Function.update_self] at heq
        exact absurd heq hl
      · rw [Function.update_of_ne hmk] at heq
        exact h.unique l m hl heq

theorem Owns.move (h : Owns lo hi used refs) (hk : refs k ≠ 0) (hl : refs l = 0) :
    Owns lo hi used (Function.update (Function.update refs k 0) l (refs k)) := by
  have hused : used (refs k) := h.used_refs hk
  have hlk : l ≠ k := by
    rintro rfl
    exact hk hl
  have hreleased : Owns lo hi (fun c => c ≠ refs k ∧ used c) (Function.update refs k 0) :=
    h.release hk fun _ _ => Iff.rfl
  refine hreleased.acquire ?_ (h.range k hk).2 (fun h => h.1 rfl) fun c _ => ?_
  · rw [Function.update_of_ne hlk, hl]
  · constructor
    · intro hc
      by_cases heq : c = refs k
      · exact .inl heq
      · exact .inr ⟨heq, hc⟩
    · rintro (rfl | ⟨-, hc⟩)
      · exact hused
      · exact hc

end Ownership

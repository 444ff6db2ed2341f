import Mathlib.Logic.Basic

/-!
# Things that are in one place

A relation between things and places is exclusive when nothing is in two places. It stays so when
the things are moved, as long as where a thing goes depends on the thing and its place only.
-/

namespace ExclusivePlaces

variable {α β : Type*} {H H' : α → β → Prop} {a : α} {b e : β}

def Exclusive (H : α → β → Prop) : Prop := ∀ a b b', H a b → H a b' → b = b'

theorem Exclusive.image (h : Exclusive H) (g : α → β → β)
    (hg : ∀ a b', H' a b' → ∃ b, H a b ∧ g a b = b') :
    Exclusive H' := by
  intro a b b' hb hb'
  obtain ⟨c, hc, rfl⟩ := hg a b hb
  obtain ⟨c', hc', rfl⟩ := hg a b' hb'
  rw [h a c c' hc hc']

theorem Exclusive.mono (h : Exclusive H) (himp : ∀ a b, H' a b → H a b) : Exclusive H' :=
  h.image (fun _ b => b) fun a b hb => ⟨b, himp a b hb, rfl⟩

theorem Exclusive.move (h : Exclusive H) (hb : H a b)
    (hstep : ∀ c d, H' c d → H c d ∧ (c = a → d ≠ b) ∨ c = a ∧ d = e) : Exclusive H' := by
  intro c d d' hd hd'
  rcases hstep c d hd with ⟨hold, hne⟩ | ⟨hc, rfl⟩
  · rcases hstep c d' hd' with ⟨hold', -⟩ | ⟨hc', -⟩
    · exact h c d d' hold hold'
    · subst hc'
      exact absurd (h c d b hold hb) (hne rfl)
  · rcases hstep c d' hd' with ⟨hold', hne'⟩ | ⟨-, rfl⟩
    · subst hc
      exact absurd (h c d' b hold' hb) (hne' rfl)
    · rfl

theorem Exclusive.put {A : α → Prop} (h : Exclusive H) (hA : ∀ c, A c → ∀ d, ¬ H c d)
    (hstep : ∀ c d, H' c d → H c d ∨ A c ∧ d = e) : Exclusive H' := by
  intro c d d' hd hd'
  rcases hstep c d hd with hold | ⟨hc, rfl⟩
  · rcases hstep c d' hd' with hold' | ⟨hc, -⟩
    · exact h c d d' hold hold'
    · exact absurd hold (hA c hc d)
  · rcases hstep c d' hd' with hold' | ⟨-, rfl⟩
    · exact absurd hold' (hA c hc d')
    · rfl

end ExclusivePlaces

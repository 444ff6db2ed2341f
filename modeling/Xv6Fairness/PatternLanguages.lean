import Mathlib.Computability.Language

/-!
# Languages of simple patterns

A pattern is a sequence of items, each for one symbol of a class or for any number of them. A word
begins with a pattern if it can be cut behind a word of the pattern's language, and the rest is
empty where the pattern is bound to the end.
-/

namespace Patterns

variable {α : Type*}

inductive Item (α : Type*)
  | one (s : Set α)
  | many (s : Set α)

/-- The words of one symbol. -/
def letters (s : Set α) : Language α := {w | ∃ a ∈ s, w = [a]}

def Item.language : Item α → Language α
  | .one s => letters s
  | .many s => KStar.kstar (letters s)

structure Pattern (α : Type*) where
  items : List (Item α)
  atEnd : Bool

def Pattern.language (p : Pattern α) : Language α := (p.items.map Item.language).prod

def Pattern.cons (i : Item α) (p : Pattern α) : Pattern α := { p with items := i :: p.items }

/-- A word of the pattern's language stands at the beginning. -/
def Pattern.Begins (p : Pattern α) (w : List α) : Prop :=
  ∃ u v, w = u ++ v ∧ u ∈ p.language ∧ (p.atEnd = true → v = [])

/-- A word of the pattern's language stands somewhere. -/
def Pattern.Occurs (p : Pattern α) (w : List α) : Prop :=
  ∃ t u v, w = t ++ u ++ v ∧ u ∈ p.language ∧ (p.atEnd = true → v = [])

variable {p : Pattern α} {s : Set α} {a : α} {w : List α}

theorem mem_kstar_letters : w ∈ KStar.kstar (letters s) ↔ ∀ a ∈ w, a ∈ s := by
  rw [Language.mem_kstar]
  constructor
  · rintro ⟨ws, rfl, hws⟩ a ha
    obtain ⟨v, hv, hav⟩ := List.mem_flatten.mp ha
    obtain ⟨b, hb, rfl⟩ := hws v hv
    rwa [List.mem_singleton.mp hav]
  · intro h
    refine ⟨w.map fun a => [a], ?_, fun v hv => ?_⟩
    · induction w with
      | nil => rfl
      | cons a w ih =>
          rw [List.map_cons, List.flatten_cons, List.singleton_append,
            ← ih fun b hb => h b (List.mem_cons_of_mem a hb)]
    · obtain ⟨a, ha, rfl⟩ := List.mem_map.mp hv
      exact ⟨a, h a ha, rfl⟩

theorem mem_language_cons {i : Item α} :
    w ∈ (p.cons i).language ↔ ∃ u ∈ i.language, ∃ v ∈ p.language, u ++ v = w := by
  rw [Pattern.language, Pattern.cons, List.map_cons, List.prod_cons, Language.mem_mul,
    Pattern.language]

theorem begins_empty : (⟨[], false⟩ : Pattern α).Begins w :=
  ⟨[], w, rfl, rfl, nofun⟩

theorem begins_end : (⟨[], true⟩ : Pattern α).Begins w ↔ w = [] := by
  constructor
  · rintro ⟨u, v, rfl, hu, hv⟩
    have hnil : u = [] := hu
    rw [hnil, hv rfl, List.append_nil]
  · rintro rfl
    exact ⟨[], [], rfl, rfl, fun _ => rfl⟩

theorem begins_one :
    (p.cons (.one s)).Begins w ↔ ∃ a v, w = a :: v ∧ a ∈ s ∧ p.Begins v := by
  constructor
  · rintro ⟨u, v, rfl, hu, hend⟩
    obtain ⟨u₁, ⟨a, ha, rfl⟩, u₂, hu₂, rfl⟩ := mem_language_cons.mp hu
    exact ⟨a, u₂ ++ v, rfl, ha, u₂, v, rfl, hu₂, hend⟩
  · rintro ⟨a, v, rfl, ha, u, t, rfl, hu, hend⟩
    exact ⟨a :: u, t, rfl, mem_language_cons.mpr ⟨[a], ⟨a, ha, rfl⟩, u, hu, rfl⟩, hend⟩

/-- The word begins with the rest of the pattern, or with a symbol for the item and then as before.
-/
theorem begins_many :
    (p.cons (.many s)).Begins w ↔
      p.Begins w ∨ ∃ a v, w = a :: v ∧ a ∈ s ∧ (p.cons (.many s)).Begins v := by
  constructor
  · rintro ⟨u, v, rfl, hu, hend⟩
    obtain ⟨u₁, hu₁, u₂, hu₂, rfl⟩ := mem_language_cons.mp hu
    have hall := mem_kstar_letters.mp hu₁
    cases u₁ with
    | nil => exact .inl ⟨u₂, v, rfl, hu₂, hend⟩
    | cons a u₁ =>
        have hrest : u₁ ∈ KStar.kstar (letters s) :=
          mem_kstar_letters.mpr fun b hb => hall b (List.mem_cons_of_mem a hb)
        exact .inr ⟨a, u₁ ++ u₂ ++ v, rfl, hall a List.mem_cons_self, u₁ ++ u₂, v, rfl,
          mem_language_cons.mpr ⟨u₁, hrest, u₂, hu₂, rfl⟩, hend⟩
  · rintro (⟨u, v, rfl, hu, hend⟩ | ⟨a, v, rfl, ha, u, t, rfl, hu, hend⟩)
    · exact ⟨u, v, rfl, mem_language_cons.mpr ⟨[], Language.nil_mem_kstar _, u, hu, rfl⟩, hend⟩
    · obtain ⟨u₁, hu₁, u₂, hu₂, rfl⟩ := mem_language_cons.mp hu
      have hall := mem_kstar_letters.mp hu₁
      refine ⟨a :: (u₁ ++ u₂), t, rfl, mem_language_cons.mpr ⟨a :: u₁, ?_, u₂, hu₂, rfl⟩, hend⟩
      refine mem_kstar_letters.mpr fun b hb => ?_
      rcases List.mem_cons.mp hb with rfl | hb
      · exact ha
      · exact hall b hb

theorem occurs_iff : p.Occurs w ↔ p.Begins w ∨ ∃ a v, w = a :: v ∧ p.Occurs v := by
  constructor
  · rintro ⟨t, u, v, rfl, hu, hend⟩
    cases t with
    | nil => exact .inl ⟨u, v, rfl, hu, hend⟩
    | cons a t => exact .inr ⟨a, t ++ u ++ v, rfl, t, u, v, rfl, hu, hend⟩
  · rintro (⟨u, v, rfl, hu, hend⟩ | ⟨a, w, rfl, t, u, v, rfl, hu, hend⟩)
    · exact ⟨[], u, v, rfl, hu, hend⟩
    · exact ⟨a :: t, u, v, rfl, hu, hend⟩

end Patterns

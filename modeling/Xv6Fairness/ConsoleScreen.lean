import Mathlib.Algebra.Order.Group.Nat
import Mathlib.Data.Nat.Basic
import Mathlib.Data.List.Basic
import Mathlib.Logic.Function.Basic

/-!
# The screen of the console

`cgaputc` keeps the last 24 rows of what has been written in the memory of the screen. The text
itself is a sheet with rows without end; the screen is the window on it that ends with the lowest
row that the cursor has been in.
-/

namespace Xv6Fairness

namespace ConsoleScreen

/-- What `consputc` hands on. -/
inductive Char8
  | newline
  | backspace
  | byte (c : UInt8)

/-- Black on white. -/
def cell (c : UInt8) : ℕ := c.toNat ||| 0x0700

def blank : ℕ := cell 32

structure Screen where
  crt : ℕ → ℕ
  pos : ℕ

namespace Screen

/-- Where the cursor goes, with the byte at its old place. -/
def put (s : Screen) : Char8 → Screen
  | .newline => { s with pos := s.pos + (80 - s.pos % 80) }
  | .backspace => { s with pos := if s.pos > 0 then s.pos - 1 else s.pos }
  | .byte c => ⟨Function.update s.crt s.pos (cell c), s.pos + 1⟩

/-- `memmove` takes the rows up, and `memset` clears what is behind the cursor. -/
def scroll (s : Screen) : Screen :=
  if s.pos / 80 ≥ 24 then
    let crt : ℕ → ℕ := fun i => if i < 23 * 80 then s.crt (i + 80) else s.crt i
    let pos := s.pos - 80
    ⟨fun i => if pos ≤ i ∧ i < 24 * 80 then 0 else crt i, pos⟩
  else s

/-- `none` is the panic. -/
def cgaputc (s : Screen) (c : Char8) : Option Screen :=
  let s := s.put c
  if s.pos > 25 * 80 then none
  else
    let s := s.scroll
    some { s with crt := Function.update s.crt s.pos blank }

def write (s : Screen) (cs : List Char8) : Option Screen := cs.foldlM cgaputc s

end Screen

/-- A text without end, its cursor, and the row that the screen starts with. -/
structure Sheet where
  cell : ℕ → ℕ
  cursor : ℕ
  top : ℕ

namespace Sheet

def put (t : Sheet) : Char8 → Sheet
  | .newline => { t with cursor := t.cursor + (80 - t.cursor % 80) }
  | .backspace => { t with cursor := if 80 * t.top < t.cursor then t.cursor - 1 else t.cursor }
  | .byte c => { t with
      cell := Function.update t.cell t.cursor (ConsoleScreen.cell c)
      cursor := t.cursor + 1 }

def type (t : Sheet) (c : Char8) : Sheet :=
  let t := t.put c
  { t with
    cell := Function.update t.cell t.cursor blank
    top := max t.top (t.cursor / 80 - 23) }

def write (t : Sheet) (cs : List Char8) : Sheet := cs.foldl type t

end Sheet

/-- The screen shows 24 rows of the sheet, with the cursor in them, and nothing has been written
below. -/
structure Shows (s : Screen) (t : Sheet) : Prop where
  cells : ∀ i < 24 * 80, s.crt i = t.cell (80 * t.top + i)
  cursor : t.cursor = 80 * t.top + s.pos
  inside : s.pos < 24 * 80
  below : ∀ i, 80 * (t.top + 24) ≤ i → t.cell i = 0

variable {s s' : Screen} {t : Sheet} {c : Char8}

theorem Shows.put (h : Shows s t) (c : Char8) :
    (t.put c).cursor = 80 * t.top + (s.put c).pos ∧ (t.put c).top = t.top ∧
      (s.put c).pos ≤ 24 * 80 ∧
      (∀ i < 24 * 80, (s.put c).crt i = (t.put c).cell (80 * t.top + i)) ∧
      ∀ i, 80 * (t.top + 24) ≤ i → (t.put c).cell i = 0 := by
  have hcursor := h.cursor
  have hinside := h.inside
  cases c with
  | newline =>
    simp only [Sheet.put, Screen.put]
    exact ⟨by omega, trivial, by omega, h.cells, h.below⟩
  | backspace =>
    simp only [Sheet.put, Screen.put]
    refine ⟨?_, trivial, ?_, h.cells, h.below⟩
    · split_ifs <;> omega
    · split_ifs <;> omega
  | byte c =>
    simp only [Sheet.put, Screen.put]
    refine ⟨by omega, trivial, by omega, fun i hi => ?_, fun i hi => ?_⟩
    · rw [hcursor]
      by_cases hpos : i = s.pos
      · subst hpos
        simp
      · simpa [hpos] using h.cells i hi
    · rw [Function.update_of_ne (by omega)]
      exact h.below i hi

theorem Shows.cgaputc (h : Shows s t) (c : Char8) : ∃ s', s.cgaputc c = some s' ∧
    Shows s' (t.type c) := by
  obtain ⟨hcursor, htop, hpos, hcells, hbelow⟩ := h.put c
  refine ⟨_, if_neg (by omega), ?_⟩
  by_cases hscroll : (s.put c).pos / 80 ≥ 24
  · -- The cursor is in front of the row below the screen.
    have heq : (s.put c).pos = 24 * 80 := by omega
    have hrow : max (t.put c).top ((t.put c).cursor / 80 - 23) = t.top + 1 := by
      rw [hcursor, htop, heq]
      omega
    simp only [Screen.scroll, if_pos hscroll, Sheet.type, hrow]
    constructor
    case cells =>
      intro i hi
      simp only [hcursor, heq]
      by_cases hown : i = 23 * 80
      · subst hown
        rw [show 80 * (t.top + 1) + 23 * 80 = 80 * t.top + 24 * 80 by omega]
        simp
      · rw [Function.update_of_ne (by omega), Function.update_of_ne (by omega)]
        by_cases hlast : 23 * 80 < i
        · rw [if_pos (by omega), hbelow _ (by omega)]
        · rw [if_neg (by omega), if_pos (by omega), hcells _ (by omega)]
          congr 1
          omega
    case cursor =>
      simp only [hcursor, heq]
      omega
    case inside =>
      simp only [heq]
      omega
    case below =>
      intro i hi
      simp only at hi
      simp only [hcursor, heq]
      rw [Function.update_of_ne (by omega)]
      exact hbelow i (by omega)
  · have hrow : max (t.put c).top ((t.put c).cursor / 80 - 23) = t.top := by
      rw [hcursor, htop]
      omega
    simp only [Screen.scroll, if_neg hscroll, Sheet.type, hrow]
    constructor
    case cells =>
      intro i hi
      simp only [hcursor]
      by_cases hown : i = (s.put c).pos
      · subst hown
        simp
      · rw [Function.update_of_ne hown, Function.update_of_ne (by omega)]
        exact hcells i hi
    case cursor => exact hcursor
    case inside =>
      simp only
      omega
    case below =>
      intro i hi
      simp only at hi
      simp only [hcursor]
      rw [Function.update_of_ne (by omega)]
      exact hbelow i hi

theorem Shows.write (h : Shows s t) (cs : List Char8) :
    ∃ s', s.write cs = some s' ∧ Shows s' (t.write cs) := by
  induction cs generalizing s t with
  | nil => exact ⟨s, rfl, h⟩
  | cons c cs ih =>
    obtain ⟨s₁, hput, hshows⟩ := h.cgaputc c
    obtain ⟨s', hrest, hend⟩ := ih hshows
    refine ⟨s', ?_, hend⟩
    rw [Screen.write, List.foldlM_cons, hput]
    exact hrest

/-- The sheet that a screen starts. -/
def Screen.sheet (s : Screen) : Sheet := ⟨fun i => if i < 24 * 80 then s.crt i else 0, s.pos, 0⟩

/-- Whatever is written on a screen with its cursor in the first 24 rows, the console does not
panic, and the screen shows the rows of the text around its cursor. -/
theorem screen_shows (hpos : s.pos < 24 * 80) (cs : List Char8) :
    ∃ s', s.write cs = some s' ∧ Shows s' (s.sheet.write cs) := by
  have hsheet : Shows s s.sheet := by
    refine ⟨fun i hi => ?_, ?_, hpos, fun i hi => ?_⟩
    · simp [Screen.sheet, hi]
    · simp [Screen.sheet]
    · simp only [Screen.sheet] at hi ⊢
      rw [if_neg (by omega)]
  exact hsheet.write cs

theorem screen_shows_last_row :
    ∃ s', (Screen.mk (fun _ => 0) (23 * 80)).write [.byte 104, .byte 105, .newline] = some s' ∧
      Shows s' ((Screen.mk (fun _ => 0) (23 * 80)).sheet.write [.byte 104, .byte 105, .newline]) :=
  screen_shows (by decide) _

end ConsoleScreen

end Xv6Fairness

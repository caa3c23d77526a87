import Mathlib.Tactic.Ring
import Mathlib.Logic.Function.Basic

/-!
The screen of `console.c`. `cgaputc` keeps a cursor in two registers of the CRT controller and scrolls the cells of the
CGA memory; what it shows is the end of a tape that is never erased.
-/
namespace Xv6.Cga
open Function

def BACKSPACE : Nat := 0x100

/-- `crt`, and the registers 14 and 15 of the CRT controller. -/
structure Screen where
  crt : Nat → UInt16
  high : UInt8
  low : UInt8

/-- Cursor position: col + 80*row. -/
def Screen.pos (s : Screen) : Nat := s.high.toNat * 2 ^ 8 + s.low.toNat

/-- black on white -/
def cell (c : Nat) : UInt16 := UInt16.ofNat (c % 2 ^ 8) ||| 0x0700

/-- The cells and the position when the character has been put, before the scrolling. -/
def place (c : Nat) (crt : Nat → UInt16) (pos first : Nat) : (Nat → UInt16) × Nat :=
  if c = 10 then (crt,pos + (80 - pos % 80))
  else if c = BACKSPACE then (crt,if pos > first then pos - 1 else pos)
  else (update crt pos (cell c),pos + 1)

/-- `memmove` of 23 rows, and `memset` from the new position to the end of the 24th. -/
def scroll (crt : Nat → UInt16) (pos : Nat) : Nat → UInt16 := fun i =>
  if pos ≤ i ∧ i < 24 * 80 then 0 else if i < 23 * 80 then crt (i + 80) else crt i

def cgaputc (c : Nat) (s : Screen) : Except String Screen :=
  let (crt,pos) := place c s.crt s.pos 0
  if pos > 25 * 80 then .error "pos under/overflow"
  else
    let (crt,pos) := if pos / 80 ≥ 24 then (scroll crt (pos - 80),pos - 80) else (crt,pos)
    .ok ⟨update crt pos (cell 32),UInt8.ofNat (pos / 2 ^ 8),UInt8.ofNat pos⟩

/-- A tape of cells with a cursor. The first `top` rows have left the screen; the cursor does not go back to them. -/
structure Tape where
  cells : Nat → UInt16
  cursor : Nat
  top : Nat

/-- A character is put on the tape; the cell under the cursor is blank. -/
def Tape.put (t : Tape) (c : Nat) : Tape :=
  let (cells,cursor) := place c t.cells t.cursor (80 * t.top)
  ⟨update cells cursor (cell 32),cursor,if cursor / 80 ≥ t.top + 24 then t.top + 1 else t.top⟩

/-- The tape when a screen of 24 rows is all there is of it. -/
def Screen.tape (s : Screen) : Tape := ⟨fun i => if i < 24 * 80 then s.crt i else 0,s.pos,0⟩

/-- The screen is the part of the tape from row `top` on; what is behind it has not been written to. -/
structure Shows (t : Tape) (s : Screen) : Prop where
  cursor : t.cursor = s.pos + 80 * t.top
  inside : s.pos < 24 * 80
  cells : ∀ i < 24 * 80, s.crt i = t.cells (i + 80 * t.top)
  fresh : ∀ i ≥ 80 * (t.top + 24), t.cells i = 0

/-- The cursor is stored in the registers, and its cell is blank. -/
theorem shows_cursor {cells crt : Nat → UInt16} {pos top : Nat} (inside : pos < 24 * 80)
    (same : ∀ i < 24 * 80, crt i = cells (i + 80 * top)) (fresh : ∀ i ≥ 80 * (top + 24), cells i = 0) :
    Shows ⟨update cells (pos + 80 * top) (cell 32),pos + 80 * top,top⟩
      ⟨update crt pos (cell 32),UInt8.ofNat (pos / 2 ^ 8),UInt8.ofNat pos⟩ := by
  have stored : Screen.pos ⟨update crt pos (cell 32),UInt8.ofNat (pos / 2 ^ 8),UInt8.ofNat pos⟩ = pos := by
    simp [Screen.pos, UInt8.toNat_ofNat']
    omega
  refine ⟨by rw [stored],by rwa [stored],?_,?_⟩
  · intro i low
    simp [update_apply, same i low]
  · intro i (high : i ≥ 80 * (top + 24))
    exact (update_of_ne (by omega) _ _).trans (fresh i high)

/-- Putting a character does the same to the tape and to the screen. -/
theorem Shows.place {t : Tape} {s : Screen} (shows : Shows t s) (c : Nat) :
    (place c t.cells t.cursor (80 * t.top)).2 = (place c s.crt s.pos 0).2 + 80 * t.top ∧
    (place c s.crt s.pos 0).2 ≤ 24 * 80 ∧
    (∀ i < 24 * 80, (place c s.crt s.pos 0).1 i = (place c t.cells t.cursor (80 * t.top)).1 (i + 80 * t.top)) ∧
    ∀ i ≥ 80 * (t.top + 24), (place c t.cells t.cursor (80 * t.top)).1 i = 0 := by
  obtain ⟨cursor,inside,cells,fresh⟩ := shows
  unfold Cga.place
  split_ifs <;> grind [update_apply]

theorem Shows.put {t : Tape} {s : Screen} (shows : Shows t s) (c : Nat) :
    ∃ s', cgaputc c s = .ok s' ∧ Shows (t.put c) s' := by
  obtain ⟨cursor,inside,cells,fresh⟩ := shows.place c
  rcases placed : Cga.place c s.crt s.pos 0 with ⟨crt,pos⟩
  rcases taped : Cga.place c t.cells t.cursor (80 * t.top) with ⟨tape,at'⟩
  simp only [placed, taped] at cursor inside cells fresh
  simp only [cgaputc, Tape.put, placed, taped]
  rw [if_neg (by omega)]
  refine ⟨_,rfl,?_⟩
  subst cursor
  by_cases full : pos / 80 ≥ 24
  · -- the cursor is at the beginning of row 24, which becomes row 23 of the screen
    have last : pos = 23 * 80 + 80 := by omega
    subst last
    have next : 23 * 80 + 80 + 80 * t.top = 23 * 80 + 80 * (t.top + 1) := by ring
    rw [if_pos full, if_pos (by omega), next]
    refine shows_cursor (by omega) (fun i low => ?_) fun i high => fresh i (by omega)
    simp only [scroll]
    grind
  · rw [if_neg full, if_neg (by omega)]
    exact shows_cursor (by omega) cells fresh

theorem Shows.puts {t : Tape} {s : Screen} (shows : Shows t s) (cs : List Nat) :
    ∃ s', cs.foldlM (fun s c => cgaputc c s) s = .ok s' ∧ Shows (cs.foldl Tape.put t) s' := by
  induction cs generalizing t s with
  | nil => exact ⟨s,rfl,shows⟩
  | cons c cs ih =>
    obtain ⟨s₁,one,shows⟩ := shows.put c
    obtain ⟨s',rest,shows⟩ := ih shows
    exact ⟨s',by rw [List.foldlM_cons, one]; exact rest,shows⟩

/-- Whatever is printed, `cgaputc` does not panic, and the screen shows the last rows of the tape. -/
theorem cga_shows_tape {s : Screen} (start : s.pos < 24 * 80) (cs : List Nat) :
    ∃ s', cs.foldlM (fun s c => cgaputc c s) s = .ok s' ∧ Shows (cs.foldl Tape.put s.tape) s' := by
  refine Shows.puts ⟨by simp [Screen.tape],start,fun i low => ?_,?_⟩ cs
  · simp [Screen.tape, low]
  · intro i (high : i ≥ 80 * (0 + 24))
    show (if i < 24 * 80 then s.crt i else 0) = 0
    rw [if_neg (by omega)]

/-- In the last row a newline scrolls the screen. -/
theorem cga_shows_tape_scrolled : ∃ s', [65,10].foldlM (fun s c => cgaputc c s) ⟨fun _ => 0,7,48⟩ = .ok s' ∧
    ([65,10].foldl Tape.put (Screen.tape ⟨fun _ => 0,7,48⟩)).top = 1 ∧
    Shows ([65,10].foldl Tape.put (Screen.tape ⟨fun _ => 0,7,48⟩)) s' := by
  obtain ⟨s',ran,shows⟩ := cga_shows_tape (s := ⟨fun _ => 0,7,48⟩) (by decide) [65,10]
  exact ⟨s',ran,by decide,shows⟩

end Xv6.Cga

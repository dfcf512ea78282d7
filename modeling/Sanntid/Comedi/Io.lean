import Sanntid.Control.Fallible

/-!
# The IO driver of `ex6` and `ex7`

`io.c` drives three test inputs and three response outputs of a card through comedilib, which is
not part of the repository. Its calls are a parameter here (`Comedilib`), with the documented
behaviour that results rest on as a hypothesis (`Lawful`). `io_init` makes its calls one after the
other and returns with the first one that is refused; the result of its last three writes is
dropped, and so are the results of `io_write` and `io_read`. On a card that refuses nothing,
`io_init` leaves all response lines high (`ioInit_high`).
-/

set_option autoImplicit false

namespace Sanntid.Comedi

open Sanntid.Control

/-- `COMEDI_INPUT` and `COMEDI_OUTPUT`. -/
inductive Direction where
  | input
  | output
  deriving DecidableEq

/-- The calls of comedilib that `io.c` makes on an open card in state `κ`, with their result, which
is negative for a refusal. `comedi_dio_read` has the cell behind `bit` too. -/
structure Comedilib (κ : Type) where
  dioConfig (card : κ) (subdevice chan : Int) (dir : Direction) : Int × κ
  dioWrite (card : κ) (subdevice chan bit : Int) : Int × κ
  dioRead (card : κ) (subdevice chan : Int) (bit : BitVec 32) : Int × BitVec 32 × κ

/-- The card, and what the program has printed. -/
structure World (κ : Type) where
  card : κ
  stdout : List String

/-- The subdevice of all calls. -/
def IO_DEV : Int := 3

/-- The line of the test input of channel `x`. -/
def DI (x : Int) : Int := 24 - x

/-- The line of the response output of channel `x`. -/
def DO (x : Int) : Int := 16 - x

variable {κ : Type}

/-- What comedilib promises of the lines of the card: an accepted write sets its line, a refused one
leaves it, and no write touches another line; an accepted read stores the level of its line, and no
read touches a line. -/
structure Lawful (dev : Comedilib κ) (level : κ → Int → Bool) : Prop where
  write_accepted : ∀ card chan bit, 0 ≤ (dev.dioWrite card IO_DEV chan bit).1 →
    level (dev.dioWrite card IO_DEV chan bit).2 chan = decide (bit ≠ 0)
  write_refused : ∀ card chan bit, (dev.dioWrite card IO_DEV chan bit).1 < 0 →
    level (dev.dioWrite card IO_DEV chan bit).2 chan = level card chan
  write_other : ∀ card chan bit other, other ≠ chan →
    level (dev.dioWrite card IO_DEV chan bit).2 other = level card other
  read_accepted : ∀ card chan bit, 0 ≤ (dev.dioRead card IO_DEV chan bit).1 →
    ((dev.dioRead card IO_DEV chan bit).2.1 = 0 ↔ level card chan = false)
  read_level : ∀ card chan bit other,
    level (dev.dioRead card IO_DEV chan bit).2.2 other = level card other

section Driver

variable (dev : Comedilib κ)

/-! ## Initialisation -/

/-- `res = call; if (res<0) return res;`. -/
def checked (r : Int × κ) : Except (Int × κ) κ :=
  if r.1 < 0 then .error r else .ok r.2

/-- The body of the first loop. -/
def initChannel (i : Int) (card : κ) : Except (Int × κ) κ := do
  let card ← checked (dev.dioConfig card IO_DEV (DI i) .input)
  let card ← checked (dev.dioConfig card IO_DEV (DO i) .output)
  checked (dev.dioWrite card IO_DEV (DO i) 0)

/-- The body of the second loop; the result of the write is dropped. -/
def raiseResponse (i : Int) (card : κ) : Except (Int × κ) κ :=
  .ok (dev.dioWrite card IO_DEV (DO i) 1).2

/-- The value that `io_init` returns, and what it leaves. The driver of `ex7` prints a text at the
end. -/
def ioInit (opened : Bool) (texts : List String) (w : World κ) : Int × World κ :=
  if opened then
    match forLoop 1 4 (initChannel dev) w.card >>= forLoop 1 4 (raiseResponse dev) with
    | .ok card => (1, ⟨card, w.stdout ++ texts⟩)
    | .error (res, card) => (res, { w with card := card })
  else (-1, w)

/-- What the driver of `ex7` prints at the end of `io_init`. -/
def initComplete : List String := ["init complete\n"]

/-! ## Writing and reading -/

/-- Any value but 0 is written as 1. -/
def ioWrite (channel value : Int) (w : World κ) : World κ :=
  if channel ≥ 1 ∧ channel ≤ 3 then
    if value = 0 then { w with card := (dev.dioWrite w.card IO_DEV (DO channel) 0).2 }
    else { w with card := (dev.dioWrite w.card IO_DEV (DO channel) 1).2 }
  else { w with stdout := w.stdout ++ ["Incorrect io channel\n"] }

/-- `data` is 0 before the call, and what it is then is returned. -/
def ioRead (channel : Int) (w : World κ) : Int × World κ :=
  if channel ≥ 1 ∧ channel ≤ 3 then
    let (_, data, card) := dev.dioRead w.card IO_DEV (DI channel) 0
    (data.toInt, { w with card := card })
  else (-1, { w with stdout := w.stdout ++ ["Incorrect io channel\n"] })

end Driver

/-! ## Lines -/

section Lines

variable {dev : Comedilib κ} {level : κ → Int → Bool}

theorem checked_of_accepted {r : Int × κ} (h : 0 ≤ r.1) : checked r = .ok r.2 :=
  if_neg (not_lt.2 h)

/-- Every call of the first loop is accepted by a card that refuses nothing. -/
theorem initChannel_accepted
    (hconfig : ∀ card chan dir, 0 ≤ (dev.dioConfig card IO_DEV chan dir).1)
    (hwrite : ∀ card chan bit, 0 ≤ (dev.dioWrite card IO_DEV chan bit).1) (i : Int) (card : κ) :
    ∃ card', initChannel dev i card = .ok card' := by
  rw [initChannel, checked_of_accepted (hconfig _ _ _), bind_of_ok rfl,
    checked_of_accepted (hconfig _ _ _), bind_of_ok rfl, checked_of_accepted (hwrite _ _ _)]
  exact ⟨_, rfl⟩

/-- On a card that refuses nothing `io_init` leaves the response lines of all channels high. -/
theorem ioInit_high (hlaw : Lawful dev level)
    (hconfig : ∀ card chan dir, 0 ≤ (dev.dioConfig card IO_DEV chan dir).1)
    (hwrite : ∀ card chan bit, 0 ≤ (dev.dioWrite card IO_DEV chan bit).1)
    (texts : List String) (w : World κ) {i : Int} (hfrom : 1 ≤ i) (hto : i < 4) :
    level (ioInit dev true texts w).2.card (DO i) = true := by
  have hsetup : ∃ low, forLoop 1 4 (initChannel dev) w.card = .ok low ∧ True := by
    apply forLoop_spec (fun _ _ => True) (by decide) trivial
    intro j card _ _ _
    obtain ⟨card', hcard'⟩ := initChannel_accepted hconfig hwrite j card
    exact ⟨card', hcard', trivial⟩
  obtain ⟨low, hlow, -⟩ := hsetup
  -- the second loop raises one line after the other and keeps those raised before
  have hraise : ∃ high, forLoop 1 4 (raiseResponse dev) low = .ok high ∧
      ∀ j, 1 ≤ j → j < 4 → level high (DO j) = true := by
    apply forLoop_spec (fun n card => ∀ j, 1 ≤ j → j < n → level card (DO j) = true) (by decide)
    · intro j hj hj'
      omega
    · intro n card _ _ hcard
      refine ⟨_, rfl, fun j hj hj' => ?_⟩
      by_cases hlast : j = n
      · rw [hlast, hlaw.write_accepted _ _ _ (hwrite _ _ _)]
        rfl
      · have hother : DO j ≠ DO n := fun h => hlast (by unfold DO at h; omega)
        rw [hlaw.write_other _ _ _ _ hother]
        exact hcard j hj (by omega)
  obtain ⟨high, hhigh, hlines⟩ := hraise
  rw [ioInit, if_pos rfl, hlow, bind_of_ok rfl, hhigh]
  exact hlines i hfrom hto

end Lines

end Sanntid.Comedi

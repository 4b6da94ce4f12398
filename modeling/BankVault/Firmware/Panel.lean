import BankVault.Firmware.GraphicTop
import BankVault.Paint.Patch
import BankVault.Wire.Framing

/-!
# The panel

A 96 by 64 framebuffer behind a byte link. It knows the commands of the initialisation
sequence, the rectangle and the fill mode; a zero where a command is expected takes no
arguments and does nothing.

* `run_eq`: a list of commands is one patch of the framebuffer, which depends on the fill
  mode before it only.
-/

namespace BankVault

namespace Firmware

open Paint Wire

abbrev Pixel := Fin 96 × Fin 64

/-- The three bytes of a pixel's colour. -/
abbrev Colour := Byte × Byte × Byte

def black : Colour := (0, 0, 0)

/-- The other commands that take one argument. -/
def oneArgument : List Byte :=
  [0x81, 0x82, 0x83, 0x87, 0x8A, 0x8B, 0x8C, 0xA0, 0xA1, 0xA2, 0xA8, 0xAD, 0xB0, 0xB1, 0xB3, 0xBB, 0xBE]

def noArgument : List Byte := [0x00, 0x2E, 0xA4, 0xAE, 0xAF]

/-- How many argument bytes follow a command byte. -/
def panelArgs (b : Byte) : Option ℕ :=
  if b = drawCom then some 10 else if b = fillMode ∨ b ∈ oneArgument then some 1
  else if b ∈ noArgument then some 0 else none

structure Panel where
  pixels : Pixel → Colour
  fill : Bool

/-- The pixels of a rectangle: start column and row, end column and row, clipped to the panel. -/
def inside (args : List Byte) (p : Pixel) : Prop :=
  (args.getD 0 0).toNat ≤ p.1.val ∧ p.1.val ≤ (args.getD 2 0).toNat ∧
    (args.getD 1 0).toNat ≤ p.2.val ∧ p.2.val ≤ (args.getD 3 0).toNat

/-- The pixels of its outline. -/
def border (args : List Byte) (p : Pixel) : Prop :=
  p.1.val = (args.getD 0 0).toNat ∨ p.1.val = (args.getD 2 0).toNat ∨
    p.2.val = (args.getD 1 0).toNat ∨ p.2.val = (args.getD 3 0).toNat

instance (args : List Byte) (p : Pixel) : Decidable (inside args p) :=
  inferInstanceAs (Decidable (_ ∧ _ ∧ _ ∧ _))

instance (args : List Byte) (p : Pixel) : Decidable (border args p) :=
  inferInstanceAs (Decidable (_ ∨ _ ∨ _ ∨ _))

/-- What a rectangle paints: its outline, and with the fill mode on also its interior. -/
def rectPatch (fill : Bool) (args : List Byte) : Patch Pixel Colour := fun p =>
  if inside args p then
    if border args p then some (args.getD 4 0, args.getD 5 0, args.getD 6 0)
    else if fill then some (args.getD 7 0, args.getD 8 0, args.getD 9 0)
    else none
  else none

/-- The panel executes a command. -/
def Panel.exec : List Byte → Panel → Panel
  | com :: args, p =>
    if com = drawCom then { p with pixels := (rectPatch p.fill args).apply p.pixels }
    else if com = fillMode then { p with fill := (args.getD 0 0).getLsbD 0 }
    else p
  | [], p => p

/-! ### The display -/

/-- The panel and its receiver. -/
abbrev Display := Receiver Byte Panel

/-- Bytes sent to the display. -/
def deliver (d : Display) (bs : List Byte) : Display := feed panelArgs Panel.exec d bs

/-- The display before iteration `n`, from a framebuffer and a fill mode of any kind. -/
def displayAt (p₀ : Panel) (words : ℕ → BitVec 32) (n : ℕ) : Display :=
  deliver ⟨[], p₀⟩ (transmitted words n)

/-! ### Lists of commands -/

/-- The fill mode after some commands. -/
def fillAfter (fill : Bool) : List (List Byte) → Bool
  | [] => fill
  | (com :: args) :: cs =>
    if com = fillMode then fillAfter ((args.getD 0 0).getLsbD 0) cs else fillAfter fill cs
  | [] :: cs => fillAfter fill cs

/-- The patches some commands paint, from a fill mode on. -/
def patches (fill : Bool) : List (List Byte) → List (Patch Pixel Colour)
  | [] => []
  | (com :: args) :: cs =>
    if com = drawCom then rectPatch fill args :: patches fill cs
    else if com = fillMode then patches ((args.getD 0 0).getLsbD 0) cs
    else patches fill cs
  | [] :: cs => patches fill cs

/-- The panel after some commands. -/
def Panel.run (p : Panel) (cs : List (List Byte)) : Panel := cs.foldl (fun p c => Panel.exec c p) p

/-- **A list of commands is one patch.** -/
theorem run_eq (cs : List (List Byte)) : ∀ p : Panel,
    p.run cs = ⟨(Patch.stack (patches p.fill cs)).apply p.pixels, fillAfter p.fill cs⟩ := by
  have key : ∀ p : Panel,
      p.run cs = ⟨(patches p.fill cs).foldl (fun f q => q.apply f) p.pixels, fillAfter p.fill cs⟩ := by
    induction cs with
    | nil => intro p; rfl
    | cons c cs ih =>
      intro p
      show (Panel.exec c p).run cs = _
      rw [ih]
      cases c with
      | nil => rfl
      | cons com args =>
        by_cases hd : com = drawCom
        · subst hd; rfl
        · by_cases hf : com = fillMode
          · subst hf; rfl
          · simp only [Panel.exec, patches, fillAfter, hd, hf, if_false]
  intro p
  rw [key, Patch.apply_stack]

end Firmware

end BankVault

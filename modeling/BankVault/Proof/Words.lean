import BankVault.Rtl.StateLogic
import BankVault.Proof.Picture

/-!
# The word between the lock and the firmware

`state_logic` packs the state and the joystick's quadrant into the PIO word, `main` unpacks
them.

* `stateVar_rgbInput`: the six game states are read back as they were sent.
* `square_painted`: of the four squares, exactly the one `main` decodes ends up green.
* `words_iff`: when the state and the quadrant of a word are what the firmware shows.
-/

namespace BankVault

open Firmware Wire Paint

variable {cs : BitVec 3} {x y : BitVec 12} {out : BitVec 32}

theorem xPos_cases (x : BitVec 12) : xPos x = 0 ∨ xPos x = 15 := by
  unfold xPos; split_ifs
  · exact Or.inr rfl
  · exact Or.inl rfl

theorem yPos_cases (y : BitVec 12) : yPos y = 0 ∨ yPos y = 15 := xPos_cases y

theorem rgbDc_cases (out : BitVec 32) : rgbDc out = 0 ∨ rgbDc out = 1 := by
  generalize rgbDc out = b
  revert b; decide

/-- **The state is read back as it was sent**, and every other value as `victory`. -/
theorem stateVar_rgbInput (cs : BitVec 3) (x y : BitVec 12) (out : BitVec 32) :
    stateVar (rgbInput x y out cs) = if cs ≤ victory then cs.setWidth 32 else State.victory.code := by
  unfold rgbInput startString game1String game2String game3String harderString victoryString
  rcases xPos_cases x with hx | hx <;> rcases yPos_cases y with hy | hy <;>
    rcases rgbDc_cases out with ho | ho <;> rw [hx, hy, ho] <;> revert cs <;> decide

/-! ### The green square -/

/-- The four squares of the joystick game. -/
def corners : List (List Byte) := [joyResTL, joyResTR, joyResBL, joyResBR]

def greenPixel : Colour := (0x00, 0xff, 0x00)

def redPixel : Colour := (0xff, 0x00, 0x00)

/-- A rectangle whose outline and interior have one colour paints all its pixels in it. -/
theorem solid_apply (a b c d r g u : Byte) (f : Pixel → Colour) (p : Pixel) :
    (rectPatch true ([a, b, c, d] ++ [r, g, u, r, g, u])).apply f p =
      if inside [a, b, c, d] p then (r, g, u) else f p := by
  have hin : inside ([a, b, c, d] ++ [r, g, u, r, g, u]) p ↔ inside [a, b, c, d] p := Iff.rfl
  by_cases h : inside [a, b, c, d] p
  · rw [if_pos h]
    apply Patch.apply_of_some
    rw [rectPatch, if_pos (hin.2 h), if_pos rfl]
    exact ite_self _
  · rw [if_neg h]
    apply Patch.apply_of_none
    rw [rectPatch, if_neg (mt hin.1 h)]

/-- The squares do not overlap. -/
theorem corners_disjoint {q q' : List Byte} (hq : q ∈ corners) (hq' : q' ∈ corners) {p : Pixel}
    (h : inside q p) (h' : inside q' p) : q = q' := by
  obtain ⟨⟨x, hx⟩, ⟨y, hy⟩⟩ := p
  simp only [corners, List.mem_cons, List.not_mem_nil, or_false] at hq hq'
  rcases hq with rfl | rfl | rfl | rfl <;> rcases hq' with rfl | rfl | rfl | rfl <;>
    first
    | rfl
    | simp [inside, joyResTL, joyResTR, joyResBL, joyResBR] at h h'; omega

theorem square_mem (x y : Byte) : square x y ∈ corners := by
  unfold square corners
  split_ifs <;> simp

/-- **Of the four squares exactly one is green**, whatever was on the panel. -/
theorem square_painted (x y : Byte) (px : Pixel → Colour) {q : List Byte} (hq : q ∈ corners) {p : Pixel}
    (hp : inside q p) : (Panel.run ⟨px, true⟩ ((squares x y).flatMap SpiCommand.commands)).pixels p =
      if q = square x y then greenPixel else redPixel := by
  have hrun : (Panel.run ⟨px, true⟩ ((squares x y).flatMap SpiCommand.commands)).pixels =
      (rectPatch true (square x y ++ green)).apply ((rectPatch true (joyResBR ++ red)).apply
        ((rectPatch true (joyResTL ++ red)).apply ((rectPatch true (joyResBL ++ red)).apply
          ((rectPatch true (joyResTR ++ red)).apply px)))) := rfl
  have hgreen : ∀ f, (rectPatch true (square x y ++ green)).apply f p =
      if inside (square x y) p then greenPixel else f p := by
    intro f
    have hsq := square_mem x y
    simp only [corners, List.mem_cons, List.not_mem_nil, or_false] at hsq
    rcases hsq with h | h | h | h <;> rw [h] <;> exact solid_apply _ _ _ _ _ _ _ f p
  have hred : ∀ q ∈ corners, ∀ f, (rectPatch true (q ++ red)).apply f p =
      if inside q p then redPixel else f p := by
    intro q hq f
    simp only [corners, List.mem_cons, List.not_mem_nil, or_false] at hq
    rcases hq with rfl | rfl | rfl | rfl <;> exact solid_apply _ _ _ _ _ _ _ f p
  rw [hrun, hgreen, hred _ (by simp [corners]), hred _ (by simp [corners]), hred _ (by simp [corners]),
    hred _ (by simp [corners])]
  by_cases hsq : q = square x y
  · rw [if_pos hsq, if_pos (hsq ▸ hp)]
  · rw [if_neg hsq, if_neg fun h => hsq (corners_disjoint hq (square_mem x y) hp h)]
    simp only [corners, List.mem_cons, List.not_mem_nil, or_false] at hq
    rcases hq with rfl | rfl | rfl | rfl <;> simp [hp]

/-- Every square has a pixel. -/
theorem corner_pixel {q : List Byte} (hq : q ∈ corners) : ∃ p, inside q p := by
  simp only [corners, List.mem_cons, List.not_mem_nil, or_false] at hq
  rcases hq with rfl | rfl | rfl | rfl
  · exact ⟨(13, 13), by decide⟩
  · exact ⟨(61, 13), by decide⟩
  · exact ⟨(13, 45), by decide⟩
  · exact ⟨(61, 45), by decide⟩

/-- In any run, an iteration that draws the joystick game leaves the square it decodes
green, and no other. -/
theorem green_iff {p₀ : Panel} {words : ℕ → BitVec 32} {n : ℕ} (hs : stateVar (words n) = State.game2.code)
    (hf : (mainAt words n).flags 1 = false) {q : List Byte} (hq : q ∈ corners) :
    (∀ p, inside q p → (displayAt p₀ words (n + 1)).device.pixels p = greenPixel) ↔
      q = square (xVal (words n)) (yVal (words n)) := by
  obtain ⟨px, hpx⟩ := idle_inv p₀ words n
  have hsent := (Main.iteration_draw (s := .game2) hs rfl hf).1
  have hpix : (displayAt p₀ words (n + 1)).device.pixels = (Panel.run ⟨px, true⟩
      ((squares (xVal (words n)) (yVal (words n))).flatMap SpiCommand.commands)).pixels := by
    rw [displayAt_succ, hpx, chunk, mainAt_succ, deliver_commands _ _ (iteration_proper _ _), hsent]
    rfl
  rw [hpix]
  refine ⟨fun hall => ?_, fun hsq p hp => ?_⟩
  · obtain ⟨p, hp⟩ := corner_pixel hq
    have hgreen := hall p hp
    rw [square_painted _ _ px hq hp] at hgreen
    by_contra hne
    rw [if_neg hne] at hgreen
    exact absurd hgreen (by decide)
  · rw [square_painted _ _ px hq hp, if_pos hsq]

/-! ### The word -/

/-- The square of the quadrant the stick is in. -/
def quadrant (x y : BitVec 12) : List Byte :=
  if y > 0x800 then if x > 0x800 then joyResTR else joyResTL
  else if x > 0x800 then joyResBR else joyResBL

/-- **The firmware shows what the lock sent**: the state and nothing else as that state; in
the joystick game also the two position fields, so that the square left green by any
iteration that draws is the one of the stick's quadrant. -/
structure WordAgrees (cs : BitVec 3) (x y : BitVec 12) (out : BitVec 32) : Prop where
  state : cs ≤ victory → stateVar (rgbInput x y out cs) = cs.setWidth 32
  notVictory : ¬ cs ≤ victory → stateVar (rgbInput x y out cs) ≠ State.victory.code
  position : cs = game2 → xVal (rgbInput x y out cs) = (xPos x).setWidth 8 ∧
    yVal (rgbInput x y out cs) = (yPos y).setWidth 8
  green : cs = game2 → ∀ (p₀ : Panel) (words : ℕ → BitVec 32) (n : ℕ),
    words n = rgbInput x y out cs → (mainAt words n).flags 1 = false → ∀ q ∈ corners,
      ((∀ p, inside q p → (displayAt p₀ words (n + 1)).device.pixels p = greenPixel) ↔ q = quadrant x y)

/-- `game_2_string` has no position fields. -/
theorem position_game2 (x y : BitVec 12) (out : BitVec 32) :
    xVal (rgbInput x y out game2) = 0 ∧ yVal (rgbInput x y out game2) = 0 := by
  have hw : rgbInput x y out game2 = game2String out := rfl
  rw [hw, game2String]
  rcases rgbDc_cases out with ho | ho <;> rw [ho] <;> decide

theorem xPos_eq_zero {x : BitVec 12} : xPos x = 0 ↔ x ≤ 0x800 := by
  unfold xPos
  by_cases h : x > 0x800
  · rw [if_pos h]
    exact ⟨fun h' => absurd h' (by decide), fun h' => absurd h (by bv_omega)⟩
  · rw [if_neg h]
    exact ⟨fun _ => by bv_omega, fun _ => rfl⟩

/-- **The word agrees with the firmware exactly for the six game states, and in the joystick
game only while neither axis is above the middle.** -/
theorem words_iff (cs : BitVec 3) (x y : BitVec 12) (out : BitVec 32) :
    WordAgrees cs x y out ↔ cs ≤ victory ∧ (cs = game2 → x ≤ 0x800 ∧ y ≤ 0x800) := by
  have hstate := stateVar_rgbInput cs x y out
  constructor
  · intro h
    refine ⟨?_, ?_⟩
    · by_contra hcs
      exact h.notVictory hcs (by rw [hstate, if_neg hcs])
    · rintro rfl
      obtain ⟨hx, hy⟩ := h.position rfl
      obtain ⟨hx0, hy0⟩ := position_game2 x y out
      rw [hx0] at hx
      rw [hy0] at hy
      have hzero : ∀ b : BitVec 4, (0 : Byte) = b.setWidth 8 → b = 0 := by decide
      exact ⟨xPos_eq_zero.1 (hzero _ hx), xPos_eq_zero.1 (hzero (yPos y) hy)⟩
  · rintro ⟨hcs, hpos⟩
    refine ⟨fun _ => by rw [hstate, if_pos hcs], fun h => absurd hcs h, ?_, ?_⟩
    · rintro rfl
      obtain ⟨hx, hy⟩ := hpos rfl
      obtain ⟨hx0, hy0⟩ := position_game2 x y out
      have hyPos : yPos y = 0 := xPos_eq_zero.2 hy
      rw [hx0, hy0, xPos_eq_zero.2 hx, hyPos]
      exact ⟨rfl, rfl⟩
    · rintro rfl p₀ words n hw hf q hq
      obtain ⟨hx, hy⟩ := hpos rfl
      obtain ⟨hx0, hy0⟩ := position_game2 x y out
      have hs : stateVar (words n) = State.game2.code := by rw [hw, hstate]; rfl
      have hsq : square (xVal (words n)) (yVal (words n)) = quadrant x y := by
        rw [hw, hx0, hy0, quadrant, if_neg (by bv_omega), if_neg (by bv_omega)]
        rfl
      rw [green_iff hs hf hq, hsq]

/-- The stick pushed up and right in the joystick game, and a state outside the six. -/
theorem words_disagree : ¬ WordAgrees game2 0xfff 0xfff 0 ∧ ¬ WordAgrees fubar 0 0 0 := by
  refine ⟨fun h => ?_, fun h => ?_⟩
  · exact absurd (h.position rfl).1 (by decide)
  · exact absurd rfl (h.notVictory (by decide))

end BankVault

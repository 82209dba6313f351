import RegionPooling.Binary.Arithmetic

/-!
# Interpolation

A sample position lies between two pixels along each axis, and its value is interpolated
from the four pixels around it. `Corners` is the pair of pixels along one axis with the
distance of the position from the lower one; `Sample` puts two of them together.

Outside of the map the outermost pixel counts.
-/

namespace RegionPooling

/-- The pixels around a position along one axis. -/
structure Corners where
  lower : Nat
  upper : Nat
  /-- How far the position is past the lower pixel. -/
  fraction : Single
  deriving DecidableEq

/-- The pixels around a position on an axis of the given length. -/
def Corners.around (position : Single) (length : Nat) : Corners :=
  let whole := position.floor
  -- Not-a-number is not below zero: it goes on to the first pixel, and stays in the fraction.
  if whole < .zero false then ⟨0, 0, .zero false⟩
  else
    let lower := (whole.clampToInt 0 0xFFFFFFFFFFFFFFFF).toNat
    if length - 1 ≤ lower then ⟨length - 1, length - 1, .zero false⟩
    else ⟨lower, lower + 1, position - whole⟩

/-- The four pixels around a sample, by the places of their first channels. -/
structure Sample where
  topLeft : Nat
  topRight : Nat
  bottomLeft : Nat
  bottomRight : Nat
  weightTopLeft : Single
  weightTopRight : Single
  weightBottomLeft : Single
  weightBottomRight : Single

namespace Sample

/--
The sample between the corners `y` and `x`; `base` is the place of the first pixel of the
map, `row` and `pixel` are the distances of neighbours in the buffer.
-/
def ofCorners (base row pixel : Nat) (y x : Corners) : Sample :=
  let one : Single := Binary.ofNat 1
  let left := one - x.fraction
  let top := one - y.fraction
  { topLeft := base + y.lower * row + x.lower * pixel
    topRight := base + y.lower * row + x.upper * pixel
    bottomLeft := base + y.upper * row + x.lower * pixel
    bottomRight := base + y.upper * row + x.upper * pixel
    weightTopLeft := left * top
    weightTopRight := x.fraction * top
    weightBottomLeft := left * y.fraction
    weightBottomRight := x.fraction * y.fraction }

/-- The interpolated value of one channel. -/
def value (input : Array Single) (s : Sample) (channel : Nat) : Single :=
  let pixel (place : Nat) : Single := input.getD (place + channel) (.zero false)
  s.weightTopLeft * pixel s.topLeft + s.weightTopRight * pixel s.topRight
    + s.weightBottomLeft * pixel s.bottomLeft + s.weightBottomRight * pixel s.bottomRight

end Sample

end RegionPooling

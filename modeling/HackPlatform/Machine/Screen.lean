import HackPlatform.Machine.Computer
import HackPlatform.Stream.Guarded

/-!
# Screen

The screen is 512 pixels wide and 256 high. Each row takes 32 words of memory from the screen base on; bit `k` of a word
is the pixel `k` columns to the right of the word's first one. The text rendition divides the screen into blocks
of `n` by `2 n` pixels and draws a block if any of its pixels is black.
-/

namespace HackPlatform.Computer

def screenWidth : Nat := 512

def screenHeight : Nat := 256

/-- Is the pixel black? The column and the row are inside of the screen. -/
def pixelAt (c : Computer) (x y : Nat) : Bool :=
  let addr := screenBase + y * 32 + x / 16
  addr < c.ram.size && (c.ram.read addr >>> (x % 16).toUInt16) &&& 1 != 0

/-- Is the pixel black? A pixel outside of the screen, or of memory, is not. -/
def pixel (c : Computer) (x y : Int) : Bool :=
  0 ≤ x && x < screenWidth && 0 ≤ y && y < screenHeight && c.pixelAt x.toNat y.toNat

/-- Is any pixel of the block black? The part of a block below the screen has none. -/
def blockIsBlack (c : Computer) (x y width height : Nat) : Bool :=
  (List.range' y (min height (screenHeight - y))).any fun row =>
    (List.range' x width).any fun column => c.pixelAt column row

/-- The block width for a number of columns: the smallest power of two for which the screen fits, 512 at most. The first
argument is the number of doublings left, the second the width to try. -/
def blockWidthFrom (columns : Int) : Nat → Nat → Nat
  | 0, n => n
  | doublings + 1, n => if (screenWidth / n : Nat) > columns then blockWidthFrom columns doublings (2 * n) else n

def blockWidth (columns : Int) : Nat := blockWidthFrom columns 9 1

/-- The line of text for the blocks that start at pixel row `y`. -/
def screenLine (c : Computer) (n y : Nat) : Bytes :=
  ((List.range (screenWidth / n)).map fun k => if c.blockIsBlack (n * k) y n (2 * n) then 35 else 32) ++ [10]

/-- The lines of text of the screen, for a block width. -/
def screenLines (c : Computer) (n : Nat) : List Bytes :=
  (List.range ((screenHeight + 2 * n - 1) / (2 * n))).map fun k => c.screenLine n (2 * n * k)

/-- The sequence that clears a terminal and homes its cursor. -/
def clearSequence : Bytes := ascii "\x1b[2J\x1b[1;1H"

/-- The texts of a rendition that fits a number of columns. -/
def screenTexts (c : Computer) (columns : Int) (clear : Bool) : List Bytes :=
  (if clear then [clearSequence] else []) ++ c.screenLines (blockWidth columns)

/-- Writes a rendition of the screen that fits a number of columns. -/
def render (c : Computer) (sink : Stream.Sink) (columns : Int) (clear : Bool) : Stream.Sink × Option Stream.Error :=
  Stream.emit sink (c.screenTexts columns clear)

end HackPlatform.Computer

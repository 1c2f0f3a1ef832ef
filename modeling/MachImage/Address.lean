import MachImage.Fault
/-!
Addresses of the two spaces an image lives in: offsets in its file and places in memory.
Arithmetic is on whole numbers, without a width, and stays in the space it started from.
-/
namespace MachImage

inductive Space where
  | file
  | memory
  deriving DecidableEq

structure Address (space : Space) where
  value : Int
  deriving DecidableEq

/-- The bits that two numbers share, each written in two's complement without end. -/
def commonBits (a b : Int) : Int :=
  match a, b with
  | .ofNat m, .ofNat n => .ofNat (m &&& n)
  | .ofNat m, .negSucc n => .ofNat (m - (m &&& n))
  | .negSucc m, .ofNat n => .ofNat (n - (n &&& m))
  | .negSucc m, .negSucc n => .negSucc (m ||| n)

namespace Address

variable {space : Space}

def add (a : Address space) (n : Int) : Address space := ⟨a.value + n⟩

def sub (a : Address space) (n : Int) : Address space := ⟨a.value - n⟩

def mul (a : Address space) (n : Int) : Address space := ⟨a.value * n⟩

def div (a : Address space) (n : Int) : Except Fault (Address space) :=
  if n = 0 then .error .zeroDivisor else .ok ⟨a.value.fdiv n⟩

def and (a : Address space) (n : Int) : Address space := ⟨commonBits a.value n⟩

def text (a : Address space) : String :=
  match space with
  | .file => s!"Phys[{Hex.number a.value}]"
  | .memory => Hex.number a.value

end Address

def swap32 (n : Nat) : Nat :=
  n % 256 * 0x1000000 + n / 256 % 256 * 0x10000 + n / 0x10000 % 256 * 256 +
    n / 0x1000000 % 256

def swap32? (n : Int) : Except Fault Nat :=
  if 0 ≤ n ∧ n < 0x100000000 then .ok (swap32 n.toNat) else .error (.notAWord n)

end MachImage

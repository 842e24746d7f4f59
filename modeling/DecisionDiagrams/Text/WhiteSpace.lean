/-! Characters with the Unicode property `White_Space`. -/
namespace DecisionDiagrams

/-- First and last code point of each run of characters with the property. -/
def whiteSpaceRuns : List (Nat × Nat) :=
  [(0x09, 0x0D), (0x20, 0x20), (0x85, 0x85), (0xA0, 0xA0), (0x1680, 0x1680), (0x2000, 0x200A),
    (0x2028, 0x2029), (0x202F, 0x202F), (0x205F, 0x205F), (0x3000, 0x3000)]

def isWhiteSpace (c : Char) : Bool :=
  whiteSpaceRuns.any fun run => run.1 ≤ c.toNat && c.toNat ≤ run.2

/-- The property holds of twenty-five characters. -/
example : (whiteSpaceRuns.map fun run => run.2 + 1 - run.1).sum = 25 := rfl

end DecisionDiagrams

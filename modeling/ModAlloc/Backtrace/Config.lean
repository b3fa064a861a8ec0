import ModAlloc.Backtrace.Hash

/-!
# The configured size of the aggregation table

`configuredBucketCount` reads `MOD_ALLOC_BUCKETS`: the value is trimmed, parsed
as a `usize`, clamped and rounded up to a power of two. Whatever the string, the
result is a power of two between `minBuckets` and `maxBuckets`
(`configuredBucketCount_cases`), so that `buckets - 1` is a mask.
-/

namespace ModAlloc

def defaultBuckets : Nat := 4096
def minBuckets : Nat := 64
def maxBuckets : Nat := 1 <<< 20

/-- `char::is_whitespace`: the Unicode `White_Space` property. -/
def charIsWhitespace (c : Char) : Bool :=
  let n := c.toNat
  (0x09 ≤ n && n ≤ 0x0d) || n == 0x20 || n == 0x85 || n == 0xa0 || n == 0x1680 ||
    (0x2000 ≤ n && n ≤ 0x200a) || n == 0x2028 || n == 0x2029 || n == 0x202f || n == 0x205f ||
    n == 0x3000

/-- `str::trim`. -/
def trim (s : List Char) : List Char :=
  (s.dropWhile charIsWhitespace).rdropWhile charIsWhitespace

/-- One digit of `usize::from_str`, with its checked multiplication and addition. -/
def pushDigit (acc : Nat) (c : Char) : Option Nat :=
  if '0' ≤ c ∧ c ≤ '9' then
    let next := acc * 10 + (c.toNat - '0'.toNat)
    if next < 2 ^ 64 then some next else none
  else
    none

/-- `str::parse::<usize>`: an optional `+`, then at least one digit. -/
def parseUsize (s : List Char) : Option Nat :=
  match s with
  | [] => none
  | ['+'] => none
  | '+' :: digits => digits.foldlM pushDigit 0
  | digits => digits.foldlM pushDigit 0

/-- `usize::next_power_of_two`, by the position of the highest bit of `n - 1`. -/
def nextPowerOfTwo (n : Nat) : Nat :=
  if n ≤ 1 then 1 else 2 ^ (Nat.log2 (n - 1) + 1)

/-- The bucket count for the value of `MOD_ALLOC_BUCKETS`; `none` where
`std::env::var` fails (not set, or not Unicode). -/
def configuredBucketCount (env : Option (List Char)) : Nat :=
  match env with
  | none => defaultBuckets
  | some raw =>
      let n := (parseUsize (trim raw)).getD defaultBuckets
      let n := max minBuckets (min n maxBuckets)
      nextPowerOfTwo n

theorem nextPowerOfTwo_of_two_le {n : Nat} (large : 2 ≤ n) :
    nextPowerOfTwo n = 2 ^ (Nat.log2 (n - 1) + 1) := by
  rw [nextPowerOfTwo, if_neg (by omega)]

/-- Rounding up between two powers of two stays between them. -/
theorem nextPowerOfTwo_between {n a b : Nat} (lower : 2 ^ (a + 1) ≤ n) (upper : n ≤ 2 ^ b) :
    ∃ k, a + 1 ≤ k ∧ k ≤ b ∧ nextPowerOfTwo n = 2 ^ k := by
  have two : 2 ≤ n := le_trans (by rw [Nat.pow_succ]; have := Nat.one_le_two_pow (n := a); omega)
    lower
  refine ⟨Nat.log2 (n - 1) + 1, ?_, ?_, nextPowerOfTwo_of_two_le two⟩
  · have : a ≤ Nat.log2 (n - 1) := by
      rw [Nat.le_log2 (by omega)]
      rw [Nat.pow_succ] at lower
      have := Nat.one_le_two_pow (n := a)
      omega
    omega
  · have : Nat.log2 (n - 1) < b := by
      rw [Nat.log2_lt (by omega)]
      omega
    omega

/-- **Whatever the environment says, the table has a power of two of buckets
between 64 and 1,048,576.** -/
theorem configuredBucketCount_cases (env : Option (List Char)) :
    ∃ k, 6 ≤ k ∧ k ≤ 20 ∧ configuredBucketCount env = 2 ^ k := by
  cases env with
  | none => exact ⟨12, by omega, by omega, rfl⟩
  | some raw =>
      refine nextPowerOfTwo_between (a := 5) (b := 20) (Nat.le_max_left _ _) ?_
      exact Nat.max_le.mpr ⟨by decide, Nat.min_le_right _ _⟩

theorem configuredBucketCount_pos (env : Option (List Char)) :
    0 < configuredBucketCount env := by
  obtain ⟨k, _, _, eq⟩ := configuredBucketCount_cases env
  rw [eq]
  exact Nat.two_pow_pos k

example : configuredBucketCount (some " +1000\n".toList) = 1024 := by decide

end ModAlloc

import ModAlloc.Lib.SortedIndex
import ModAlloc.Symbolicate.Report

/-!
# Symbols on Windows

`windows::build` makes an index of the public symbols of the PDB, sorted by RVA and
with one symbol for each, and `windows::resolve` searches it for the low 32 bits of an
address. However the symbols come in the PDB, the symbol found is the last one that
does not lie behind the address, the first of them where several have its RVA
(`resolve_predecessor`).
-/

namespace ModAlloc

namespace Symbolicate

namespace Windows

open DhatJson SortedIndex

/-- Pairs of an RVA and a demangled name. -/
abbrev SymbolIndex := List (U32 × List Char)

/-- What `iter.next()` comes to: a public symbol, with its RVA where the address map has
one and its raw name; a symbol that is not public or is not parsed; or an error. -/
inductive Symbol where
  | publicSymbol (rva : Option U32) (name : List Char)
  | other
  | error
deriving DecidableEq

/-- The loop over the symbol table, which ends at an error. `demangle` is
`rustc_demangle::demangle`. -/
def enumerate (demangle : List Char → List Char) (symbols : List Symbol) : SymbolIndex :=
  match symbols with
  | [] => []
  | .error :: _ => []
  | .other :: symbols => enumerate demangle symbols
  | .publicSymbol none _ :: symbols => enumerate demangle symbols
  | .publicSymbol (some rva) name :: symbols => (rva, demangle name) :: enumerate demangle symbols

def rva (symbol : U32 × List Char) : Nat := symbol.1.toNat

/-- `build`, with the symbol table; `none` where there is no PDB or it is not read. -/
def build (demangle : List Char → List Char) (symbolTable : Option (List Symbol)) :
    Option SymbolIndex :=
  symbolTable.map fun symbols =>
    let out := enumerate demangle symbols
    let out := sortByKey rva out
    dedupByKey rva out

/-- `binary_search_by_key` by RVA, which ends as documented in whatever is sorted. -/
structure BinarySearch where
  search : SymbolIndex → U32 → Except Nat Nat
  found : ∀ (index : SymbolIndex) (target : U32),
    (index.Pairwise fun p q => rva p ≤ rva q) → Found rva index target.toNat (search index target)

/-- A search from the front is one that ends as documented. -/
def BinarySearch.linear : BinarySearch where
  search index target := linearSearch rva index target.toNat
  found _ target sorted := found_linearSearch sorted target.toNat

def unresolved (address : U64) : SymbolicatedFrame := ⟨address, none, none, none, false⟩

/-- The frame of `index[pos]`; `none` where the position is out of bounds. -/
def frameAt (index : SymbolIndex) (address : U64) (pos : Nat) : Option (List SymbolicatedFrame) :=
  (index[pos]?).map fun symbol => [⟨address, some symbol.2, none, none, false⟩]

/-- `resolve`, with what is in `INDEX`; `none` where it panics. -/
def resolve (binarySearch : BinarySearch) (index : Option SymbolIndex) (address : U64) :
    Option (List SymbolicatedFrame) :=
  match index with
  | none => some [unresolved address]
  | some index =>
      let targetRva : U32 := (address &&& 0xffffffff).setWidth 32
      match binarySearch.search index targetRva with
      | .ok i => frameAt index address i
      | .error 0 => some [unresolved address]
      | .error i => frameAt index address (i - 1)

variable {demangle : List Char → List Char} {symbols : List Symbol} {index : SymbolIndex}
  {address : U64}

/-- `(address & 0xFFFF_FFFF) as u32` -/
theorem toNat_targetRva (address : U64) :
    ((address &&& 0xffffffff).setWidth 32 : U32).toNat = address.toNat % 2 ^ 32 := by
  have mask : (0xffffffff : U64).toNat = 2 ^ 32 - 1 := rfl
  rw [BitVec.toNat_setWidth, BitVec.toNat_and, mask, Nat.and_two_pow_sub_one_eq_mod, Nat.mod_mod]

/-- Where a search ends, by place. -/
theorem resolve_some (binarySearch : BinarySearch) (index : SymbolIndex) (address : U64) :
    resolve binarySearch (some index) address =
      match predecessor (binarySearch.search index ((address &&& 0xffffffff).setWidth 32)) with
      | none => some [unresolved address]
      | some i => frameAt index address i := by
  rw [resolve]
  rcases binarySearch.search index ((address &&& 0xffffffff).setWidth 32) with (_ | i) | i <;> rfl

/-- What `resolve` returns is what the report relies on. -/
theorem resolve_resolved {binarySearch : BinarySearch} {index : Option SymbolIndex}
    {frames : List SymbolicatedFrame}
    (returned : resolve binarySearch index address = some frames) : Resolved address frames := by
  cases index with
  | none =>
      cases returned
      exact .single rfl rfl
  | some index =>
      rw [resolve_some] at returned
      split at returned
      case h_1 =>
          cases returned
          exact .single rfl rfl
      case h_2 =>
          obtain ⟨symbol, _, rfl⟩ := Option.map_eq_some_iff.mp returned
          exact .single rfl rfl

/-- **The symbol found is the predecessor of the address.** -/
theorem resolve_predecessor (binarySearch : BinarySearch) (demangle : List Char → List Char)
    (symbols : List Symbol) (address : U64) :
    let pairs := enumerate demangle symbols
    let low := address.toNat % 2 ^ 32
    ∃ function, resolve binarySearch (build demangle (some symbols)) address =
        some [⟨address, function, none, none, false⟩] ∧
      (function = none ↔ ∀ p ∈ pairs, low < rva p) ∧
      ∀ name, function = some name ↔ ∃ symbol, IsPredecessor rva pairs low symbol ∧
        pairs.find? (fun p => rva p = rva symbol) = some symbol ∧ symbol.2 = name := by
  intro pairs low
  have built : build demangle (some symbols) = some (SortedIndex.index rva pairs) := rfl
  have found := binarySearch.found (SortedIndex.index rva pairs)
    ((address &&& 0xffffffff).setWidth 32) ((index_sorted rva pairs).imp le_of_lt)
  rw [toNat_targetRva] at found
  rw [built, resolve_some]
  cases isPlace : predecessor (binarySearch.search (SortedIndex.index rva pairs)
      ((address &&& 0xffffffff).setWidth 32)) with
  | none =>
      have above := found.of_index_none isPlace
      refine ⟨none, rfl, ⟨fun _ => above, fun _ => rfl⟩, fun name => ⟨?_, ?_⟩⟩
      · intro isName
        cases isName
      · rintro ⟨symbol, ⟨below, _⟩, first, _⟩
        exact absurd below (above symbol (List.mem_of_find?_eq_some first)).not_ge
  | some i =>
      obtain ⟨symbol, at_i, isPredecessor, first⟩ := found.of_index_some isPlace
      have inPairs := List.mem_of_find?_eq_some first
      refine ⟨some symbol.2, ?_, ⟨fun isNone => (nomatch isNone), fun above => ?_⟩, fun name => ⟨?_, ?_⟩⟩
      · simp only [frameAt, at_i, Option.map_some]
      · exact absurd isPredecessor.1 (above symbol inPairs).not_ge
      · intro isName
        exact ⟨symbol, isPredecessor, first, Option.some.inj isName⟩
      · rintro ⟨other, isPredecessor', first', rfl⟩
        have inPairs' := List.mem_of_find?_eq_some first'
        have same : rva other = rva symbol := le_antisymm
          (isPredecessor.2 other inPairs' isPredecessor'.1)
          (isPredecessor'.2 symbol inPairs isPredecessor.1)
        rw [same, first] at first'
        rw [Option.some.inj first']

/-- Out of order, with two names for one RVA. -/
def twoNames : List Symbol :=
  [.publicSymbol (some 0x2000) "b".toList, .other, .publicSymbol (some 0x3000) "d".toList,
    .publicSymbol none "x".toList, .publicSymbol (some 0x1000) "a".toList,
    .publicSymbol (some 0x2000) "c".toList]

theorem resolve_predecessor_twoNames :
    resolve .linear (build id (some twoNames)) 0x7ff600002010 =
      some [⟨0x7ff600002010, some "b".toList, none, none, false⟩] := by
  obtain ⟨function, resolved, _, named⟩ :=
    resolve_predecessor .linear id twoNames 0x7ff600002010
  have isB : function = some "b".toList :=
    (named _).mpr ⟨(0x2000, "b".toList), ⟨by decide, by decide⟩, by decide, rfl⟩
  rw [resolved, isB]

end Windows

end Symbolicate

end ModAlloc

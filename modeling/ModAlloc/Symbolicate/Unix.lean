import ModAlloc.Symbolicate.Report

/-!
# Symbols on Unix

`unix::resolve` hands the captured address to `addr2line` as it is. `addr2line` looks
for link-time addresses, while a captured address is the load base plus the address
after the call, so the function that made the call is found only where the sum of both
still lies in it (`resolve_iff`).
-/

namespace ModAlloc

namespace Symbolicate

namespace Unix

open DhatJson

/-! ## `resolve` -/

structure Location where
  file : Option (List Char)
  line : Option U32
deriving DecidableEq

/-- `addr2line::Frame`, with the raw name of the function where there is one. -/
structure Frame where
  function : Option (List Char)
  location : Option Location
deriving DecidableEq

/-- `UnixSymbolicator`: `ctx.find_frames(address).skip_all_loads()`, with the frames up
to the first error. -/
structure Symbolicator where
  findFrames : U64 → Option (List Frame)

def unresolved (address : U64) : SymbolicatedFrame := ⟨address, none, none, none, false⟩

/-- The body of the loop over the frames. `demangle` is `rustc_demangle::demangle`. -/
def symbolicatedFrame (demangle : List Char → List Char) (address : U64) (idx : Nat)
    (frame : Frame) : SymbolicatedFrame where
  address
  function := frame.function.map demangle
  file := frame.location.bind Location.file
  line := frame.location.bind Location.line
  inlined := decide (0 < idx)

/-- `resolve`, with what is in `SYMBOLICATOR`; `none` where it is borrowed or could not
be built. -/
def resolve (demangle : List Char → List Char) (sym : Option Symbolicator) (address : U64) :
    List SymbolicatedFrame :=
  match sym with
  | none => [unresolved address]
  | some sym =>
      match sym.findFrames address with
      | none => [unresolved address]
      | some frames =>
          let out := frames.mapIdx (symbolicatedFrame demangle address)
          if out.isEmpty then [unresolved address] else out

variable {demangle : List Char → List Char} {sym : Symbolicator}

/-- What `resolve` returns is what the report relies on. -/
theorem resolve_resolved (sym : Option Symbolicator) (address : U64) :
    Resolved address (resolve demangle sym address) := by
  unfold resolve
  cases sym with
  | none => exact .single rfl rfl
  | some sym =>
      cases found : sym.findFrames address with
      | none =>
          simp only [found]
          exact .single rfl rfl
      | some frames =>
          simp only [found]
          cases frames with
          | nil => exact .single rfl rfl
          | cons frame frames =>
              rw [List.mapIdx_cons, List.isEmpty_cons, if_neg Bool.false_ne_true]
              refine ⟨fun f inList => ?_, _, _, rfl, rfl, fun f inList => ?_⟩
              · rcases List.mem_cons.mp inList with rfl | inRest
                · rfl
                · obtain ⟨i, inRange, rfl⟩ := List.mem_mapIdx.mp inRest
                  rfl
              · obtain ⟨i, inRange, rfl⟩ := List.mem_mapIdx.mp inList
                exact decide_eq_true (Nat.succ_pos i)

/-! ## The executable -/

/-- A function of the executable: its link-time addresses, and what the debug
information has for an address in it. -/
structure Function where
  lo : U64
  hi : U64
  name : List Char
  location : U64 → Option Location
  inlinedAt : U64 → List Frame

namespace Function

def contains (f : Function) (x : U64) : Prop := f.lo ≤ x ∧ x < f.hi

instance (f : Function) (x : U64) : Decidable (f.contains x) :=
  inferInstanceAs (Decidable (f.lo ≤ x ∧ x < f.hi))

/-- The frames at an address: first those inlined there, the innermost one in front, and
last the function itself. -/
def frames (f : Function) (x : U64) : List Frame :=
  f.inlinedAt x ++ [⟨some f.name, f.location x⟩]

/-- The name of the innermost function at an address. -/
def innermost (f : Function) (x : U64) : Option (List Char) := (f.frames x).head?.bind Frame.function

end Function

structure Executable where
  functions : List Function
  disjoint : functions.Pairwise fun f g => ∀ x, ¬ (f.contains x ∧ g.contains x)

/-- `find_frames` has the frames of the function that contains the address, and
nothing where there is none. -/
structure Describes (sym : Symbolicator) (exe : Executable) : Prop where
  inside : ∀ f ∈ exe.functions, ∀ x, f.contains x → sym.findFrames x = some (f.frames x)
  outside : ∀ x, (∀ f ∈ exe.functions, ¬ f.contains x) → sym.findFrames x = some []

variable {exe : Executable} {f g : Function} {x : U64}

theorem Executable.eq_of_contains (inExe : f ∈ exe.functions) (inExe' : g ∈ exe.functions)
    (contains : f.contains x) (contains' : g.contains x) : f = g := by
  have symm : Std.Symm fun f g : Function => ∀ x, ¬ (f.contains x ∧ g.contains x) :=
    ⟨fun _ _ disjoint x both => disjoint x both.symm⟩
  by_contra different
  exact exe.disjoint.forall inExe inExe' different x ⟨contains, contains'⟩

/-- Debug information that describes the executable. -/
def Executable.symbolicator (exe : Executable) : Symbolicator where
  findFrames x :=
    some (((exe.functions.find? fun f => f.contains x).map fun f => f.frames x).getD [])

theorem Executable.describes (exe : Executable) : Describes exe.symbolicator exe where
  inside f inExe x contains := by
    have isFound : (exe.functions.find? fun f => f.contains x).isSome = true :=
      List.find?_isSome.mpr ⟨f, inExe, decide_eq_true contains⟩
    obtain ⟨g, found⟩ := Option.isSome_iff_exists.mp isFound
    have contains' := List.find?_some found
    have same : g = f := exe.eq_of_contains (List.mem_of_find?_eq_some found) inExe
      (of_decide_eq_true contains') contains
    simp only [Executable.symbolicator, found, same, Option.map_some, Option.getD_some]
  outside x outside := by
    have none : exe.functions.find? (fun f => f.contains x) = none :=
      List.find?_eq_none.mpr fun f inExe contains => outside f inExe (of_decide_eq_true contains)
    simp only [Executable.symbolicator, none, Option.map_none, Option.getD_none]

/-! ## The functions reported -/

/-- The function of the frame that `addr2line` lists last, which is not inlined. -/
def lastFunction (frames : List SymbolicatedFrame) : Option (List Char) :=
  frames.getLast?.bind SymbolicatedFrame.function

/-- The file and the line of that frame. -/
def lastLocation (frames : List SymbolicatedFrame) : Option (List Char) × Option U32 :=
  frames.getLast?.elim (none, none) fun frame => (frame.file, frame.line)

/-- The function of the frame that is not marked as inlined. -/
def physicalFunction (frames : List SymbolicatedFrame) : Option (List Char) :=
  (frames.find? (!·.inlined)).bind SymbolicatedFrame.function

theorem resolve_inside (describes : Describes sym exe) (inExe : f ∈ exe.functions)
    (contains : f.contains x) :
    resolve demangle (some sym) x = (f.frames x).mapIdx (symbolicatedFrame demangle x) := by
  have nonempty : ((f.frames x).mapIdx (symbolicatedFrame demangle x)).isEmpty = false := by
    rw [List.isEmpty_eq_false_iff, ne_eq, List.mapIdx_eq_nil_iff]
    exact List.append_ne_nil_of_right_ne_nil _ (List.cons_ne_nil _ _)
  simp only [resolve, describes.inside f inExe x contains, nonempty, Bool.false_eq_true, if_false]

theorem resolve_outside (describes : Describes sym exe) (outside : ∀ f ∈ exe.functions, ¬ f.contains x) :
    resolve demangle (some sym) x = [unresolved x] := by
  simp only [resolve, describes.outside x outside, List.mapIdx_nil, List.isEmpty_nil, if_true]

theorem getLast?_inside (describes : Describes sym exe) (inExe : f ∈ exe.functions)
    (contains : f.contains x) :
    (resolve demangle (some sym) x).getLast? =
      some (symbolicatedFrame demangle x (f.inlinedAt x).length ⟨some f.name, f.location x⟩) := by
  rw [resolve_inside describes inExe contains, Function.frames, List.mapIdx_append,
    List.mapIdx_cons, List.mapIdx_nil, List.getLast?_concat, Nat.zero_add]

theorem lastFunction_inside (describes : Describes sym exe) (inExe : f ∈ exe.functions)
    (contains : f.contains x) :
    lastFunction (resolve demangle (some sym) x) = some (demangle f.name) := by
  rw [lastFunction, getLast?_inside describes inExe contains]
  rfl

theorem lastLocation_inside (describes : Describes sym exe) (inExe : f ∈ exe.functions)
    (contains : f.contains x) :
    lastLocation (resolve demangle (some sym) x) =
      ((f.location x).bind Location.file, (f.location x).bind Location.line) := by
  rw [lastLocation, getLast?_inside describes inExe contains]
  rfl

theorem physicalFunction_inside (describes : Describes sym exe) (inExe : f ∈ exe.functions)
    (contains : f.contains x) :
    physicalFunction (resolve demangle (some sym) x) = (f.innermost x).map demangle := by
  rw [resolve_inside describes inExe contains, physicalFunction, Function.innermost]
  cases f.frames x with
  | nil => rfl
  | cons frame frames =>
      rw [List.mapIdx_cons, List.find?_cons_of_pos rfl]
      rfl

/-- **When a call is attributed to the function that made it.** A call in `f` returns
to the link-time address `r`, and the executable is mapped at `b`. The last frame is
that of `f` exactly when the address captured, `b + r`, lies in front of the end of `f`,
and then its file and line are those of `b + r`; the frame marked as not inlined is that of
`f` exactly when `f` is the innermost function there. -/
theorem resolve_iff (describes : Describes sym exe) (inExe : f ∈ exe.functions) {b r : U64}
    (call : f.lo < r ∧ r ≤ f.hi) (mapped : b.toNat + r.toNat < 2 ^ 64)
    (named : ∀ g ∈ exe.functions, demangle g.name = demangle f.name → g = f) :
    (lastFunction (resolve demangle (some sym) (b + r)) = some (demangle f.name) ↔
      b.toNat + r.toNat < f.hi.toNat) ∧
    (physicalFunction (resolve demangle (some sym) (b + r)) = some (demangle f.name) ↔
      ∃ g ∈ exe.functions, g.contains (b + r) ∧
        (g.innermost (b + r)).map demangle = some (demangle f.name)) ∧
    (b.toNat + r.toNat < f.hi.toNat → lastLocation (resolve demangle (some sym) (b + r)) =
      ((f.location (b + r)).bind Location.file, (f.location (b + r)).bind Location.line)) := by
  have sum : (b + r).toNat = b.toNat + r.toNat := BitVec.toNat_add_of_lt mapped
  have inF : f.contains (b + r) ↔ b.toNat + r.toNat < f.hi.toNat := by
    have after := BitVec.lt_def.mp call.1
    rw [Function.contains, BitVec.le_def, BitVec.lt_def, sum]
    omega
  rw [← and_assoc]
  refine ⟨?_, fun before => lastLocation_inside describes inExe (inF.mpr before)⟩
  by_cases inside : ∃ g ∈ exe.functions, g.contains (b + r)
  · obtain ⟨g, inExe', contains⟩ := inside
    rw [lastFunction_inside describes inExe' contains, physicalFunction_inside describes inExe' contains,
      ← inF]
    constructor
    · constructor
      · intro same
        exact named g inExe' (Option.some.inj same) ▸ contains
      · intro own
        rw [exe.eq_of_contains inExe' inExe contains own]
    · constructor
      · intro same
        exact ⟨g, inExe', contains, same⟩
      · rintro ⟨h, inExe'', contains', same⟩
        rwa [exe.eq_of_contains inExe' inExe'' contains contains']
  · have outside : ∀ g ∈ exe.functions, ¬ g.contains (b + r) :=
      fun g inExe contains => inside ⟨g, inExe, contains⟩
    rw [resolve_outside describes outside, ← inF]
    have noLast : lastFunction [unresolved (b + r)] = none := rfl
    have noPhysical : physicalFunction [unresolved (b + r)] = none := rfl
    rw [noLast, noPhysical]
    constructor
    · constructor
      · intro none
        cases none
      · intro own
        exact absurd own (outside f inExe)
    · constructor
      · intro none
        cases none
      · rintro ⟨g, inExe', contains, _⟩
        exact absurd contains (outside g inExe')

/-! Two functions, one after the other; the first ends in a call. -/

def caller : Function := ⟨0x1000, 0x1040, "caller".toList, fun _ => none, fun _ => []⟩

def next : Function := ⟨0x1040, 0x1080, "next".toList, fun _ => none, fun _ => []⟩

def twoFunctions : Executable where
  functions := [caller, next]
  disjoint := by
    refine List.pairwise_pair.mpr fun x both => ?_
    have before : x.toNat < caller.hi.toNat := both.1.2
    have behind : next.lo.toNat ≤ x.toNat := both.2.1
    exact absurd (Nat.lt_of_lt_of_le before behind) (Nat.lt_irrefl _)

/-- Not relocated, a call in the middle of a function is attributed to it. -/
theorem resolve_iff_caller :
    lastFunction (resolve id (some twoFunctions.symbolicator) (0 + 0x1010)) =
      some "caller".toList ∧
    lastLocation (resolve id (some twoFunctions.symbolicator) (0 + 0x1010)) = (none, none) := by
  have named : ∀ g ∈ twoFunctions.functions, id g.name = id caller.name → g = caller := by
    intro g inExe same
    simp only [twoFunctions, List.mem_cons, List.not_mem_nil, or_false] at inExe
    rcases inExe with rfl | rfl
    · rfl
    · exact absurd same (by decide)
  obtain ⟨function, _, location⟩ := resolve_iff twoFunctions.describes (f := caller)
    List.mem_cons_self (b := 0) (r := 0x1010) (by decide) (by decide) named
  exact ⟨function.mpr (by decide), location (by decide)⟩

/-- A call at the end of a function is attributed to the next one, and in an executable
that is mapped elsewhere nothing is found. -/
theorem resolve_misses :
    caller ∈ twoFunctions.functions ∧ Describes twoFunctions.symbolicator twoFunctions ∧
      caller.lo < 0x1010 ∧ (0x1010 : U64) ≤ 0x1040 ∧ (0x1040 : U64) ≤ caller.hi ∧
      resolve id (some twoFunctions.symbolicator) (0 + 0x1040) =
        [⟨0x1040, some "next".toList, none, none, false⟩] ∧
      resolve id (some twoFunctions.symbolicator) (0 + 0x1010) =
        [⟨0x1010, some "caller".toList, none, none, false⟩] ∧
      resolve id (some twoFunctions.symbolicator) (0x555555554000 + 0x1010) =
        [⟨0x555555555010, none, none, none, false⟩] :=
  ⟨List.mem_cons_self, twoFunctions.describes, by decide, by decide, by decide, by decide, by decide,
    by decide⟩

end Unix

end Symbolicate

end ModAlloc

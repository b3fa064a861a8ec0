import ModAlloc.Backtrace.Table
import ModAlloc.Lib.LinearProbe

/-!
# What holds of the table at every moment

* The accounts `claims_account`, `count_account` and `bytes_account`: what a
  bucket holds is the sum of what the `record` calls have put there, call by
  call, whatever the interleaving.
* `TableState.Sound`: every hash is placed so that its probe sequence finds it,
  an unclaimed bucket is blank, and every call has searched the slots it says it
  has (`RecordCall.Sound`).

Both hold in every state an execution from the empty table reaches.
-/

namespace ModAlloc

open Interleaving Interleaving.Program LinearProbe

/-! ## Accounts -/

/-- The bucket whose hash the call has set. -/
def RecordPc.claimedSlot : RecordPc → Option Nat
  | .fill idx _ | .initCount idx | .initBytes idx | .publish idx
  | .returned (.claimed idx) => some idx
  | _ => none

/-- The bucket whose `count` the call has incremented. -/
def RecordPc.countedSlot : RecordPc → Option Nat
  | .initBytes idx | .publish idx | .matchBytes idx
  | .returned (.claimed idx) | .returned (.matched idx) => some idx
  | _ => none

/-- The bucket to whose `total_bytes` the call has added its size. -/
def RecordPc.summedSlot : RecordPc → Option Nat
  | .publish idx | .returned (.claimed idx) | .returned (.matched idx) => some idx
  | _ => none

theorem RecordCall.advance_cases (st : Statics) (c : RecordCall) (idx : Nat) :
    c.advance st idx = .returned .dropped ∨ c.advance st idx = .probe ((idx + 1) &&& st.mask) := by
  unfold RecordCall.advance
  dsimp only
  split
  · exact .inl rfl
  · exact .inr rfl

/-- What a process contributes to the occupation of bucket `b`. -/
def Proc.claims (b : Nat) : Proc → Nat
  | .record c => if c.pc.claimedSlot = some b then 1 else 0
  | .scan _ => 0

/-- What a process contributes to the `count` of bucket `b`. -/
def Proc.counts (b : Nat) : Proc → U64
  | .record c => if c.pc.countedSlot = some b then 1 else 0
  | .scan _ => 0

/-- What a process contributes to the `total_bytes` of bucket `b`. -/
def Proc.bytes (b : Nat) : Proc → U64
  | .record c => if c.pc.summedSlot = some b then c.size else 0
  | .scan _ => 0

/-- One for a claimed bucket. -/
def Bucket.occupied (b : Bucket) : Nat := if b.hash = 0 then 0 else 1

variable {st : Statics} {mem mem' : Memory} {c c' : RecordCall}

/-- A call keeps its arguments. -/
theorem RecordCall.Trans.args (trans : RecordCall.Trans st mem c mem' c') :
    c'.frames = c.frames ∧ c'.size = c.size := by
  cases trans <;> exact ⟨rfl, rfl⟩

/-- What a write adds to a field of its bucket it adds to no other bucket. -/
theorem Memory.modify_add {M : Type*} [AddMonoid M] (field : Bucket → M) {f : Bucket → Bucket}
    {n : M} {idx : Nat} (adds : field (f (mem idx)) = field (mem idx) + n) (b : Nat) :
    field (mem.modify idx f b) = field (mem b) + if idx = b then n else 0 := by
  by_cases here : idx = b
  · subst here
    rw [Memory.modify_self, adds, if_pos rfl]
  · rw [Memory.modify_of_ne _ (Ne.symm here), if_neg here, add_zero]

theorem RecordCall.Trans.claims (trans : RecordCall.Trans st mem c mem' c') (b : Nat) :
    (mem' b).occupied + (Proc.record c).claims b =
      (mem b).occupied + (Proc.record c').claims b := by
  cases trans with
  | @claim idx pc free =>
      have occupies : Bucket.occupied { mem idx with hash := c.hash } = (mem idx).occupied + 1 := by
        simp [Bucket.occupied, free, RecordCall.hash]
      rw [Memory.modify_add Bucket.occupied occupies]
      simp [Proc.claims, RecordPc.claimedSlot, pc]
  | @seeOther idx pc | @loseToOther idx pc =>
      rcases c.advance_cases st idx with eq | eq <;>
        simp [Proc.claims, RecordPc.claimedSlot, pc, eq]
  | _ => simp [*, Proc.claims, RecordPc.claimedSlot, Bucket.occupied,
      Memory.modify_field Bucket.hash]

theorem RecordCall.Trans.counts (trans : RecordCall.Trans st mem c mem' c') (b : Nat) :
    (mem' b).count + (Proc.record c).counts b =
      (mem b).count + (Proc.record c').counts b := by
  cases trans with
  | @initCount idx pc | @matchCount idx pc =>
      rw [Memory.modify_add Bucket.count rfl]
      simp [Proc.counts, RecordPc.countedSlot, pc]
  | @seeOther idx pc | @loseToOther idx pc =>
      rcases c.advance_cases st idx with eq | eq <;>
        simp [Proc.counts, RecordPc.countedSlot, pc, eq]
  | _ => simp [*, Proc.counts, RecordPc.countedSlot, Memory.modify_field Bucket.count]

theorem RecordCall.Trans.bytes (trans : RecordCall.Trans st mem c mem' c') (b : Nat) :
    (mem' b).totalBytes + (Proc.record c).bytes b =
      (mem b).totalBytes + (Proc.record c').bytes b := by
  cases trans with
  | @initBytes idx pc | @matchBytes idx pc =>
      rw [Memory.modify_add Bucket.totalBytes rfl]
      simp [Proc.bytes, RecordPc.summedSlot, pc]
  | @seeOther idx pc | @loseToOther idx pc =>
      rcases c.advance_cases st idx with eq | eq <;>
        simp [Proc.bytes, RecordPc.summedSlot, pc, eq]
  | _ => simp [*, Proc.bytes, RecordPc.summedSlot, Memory.modify_field Bucket.totalBytes]

section Accounts

variable {ok : TableState → Move Call Unit → Prop} {moves : List (Move Call Unit)}
  {s : TableState}

/-- An account of one field of one bucket, from what a `record` step does to it. -/
theorem account_of_trans {M : Type*} [AddCancelCommMonoid M] {field : Bucket → M}
    {share : Proc → M} (b : Nat) (blank : field Bucket.empty = 0)
    (scan : ∀ r, share (.scan r) = 0)
    (init : ∀ frames size, share (.record (.init frames size)) = 0)
    (record : ∀ {mem c mem' c'}, RecordCall.Trans st mem c mem' c' →
      field (mem' b) + share (.record c) = field (mem b) + share (.record c'))
    (run : (tableProgram st).Exec ok TableState.empty moves s) :
    field (s.shared b) = (s.procs.map share).sum := by
  refine Exec.account (P := tableProgram st) (c := fun mem => field (mem b)) ?_ ?_ run ?_
  · intro s call mem' p _ started
    obtain ⟨rfl, rfl⟩ := tableProgram_start started
    cases call with
    | record frames size => rw [Call.init, init, add_zero]
    | report => rw [Call.init, scan, add_zero]
  · intro mem i p a mem' p' acted
    rcases tableProgram_act acted with ⟨c, c', rfl, rfl, trans⟩ | ⟨r, r', rfl, rfl, rfl, _⟩
    · exact record trans
    · rw [scan, scan]
  · simp only [TableState.empty, Memory.empty, blank, List.map_nil, List.sum_nil]

/-- A call that has just begun has put nothing into the table. -/
theorem RecordCall.init_slots (frames : Frames) (size : U64) :
    (RecordCall.init frames size).pc.claimedSlot = none ∧
      (RecordCall.init frames size).pc.countedSlot = none ∧
      (RecordCall.init frames size).pc.summedSlot = none := by
  unfold RecordCall.init
  dsimp only
  split <;> exact ⟨rfl, rfl, rfl⟩

theorem claims_account (run : (tableProgram st).Exec ok TableState.empty moves s) (b : Nat) :
    (s.shared b).occupied = (s.procs.map (Proc.claims b)).sum :=
  account_of_trans b rfl (fun _ => rfl)
    (fun frames size => by simp [Proc.claims, (RecordCall.init_slots frames size).1])
    (fun trans => trans.claims b) run

theorem count_account (run : (tableProgram st).Exec ok TableState.empty moves s) (b : Nat) :
    (s.shared b).count = (s.procs.map (Proc.counts b)).sum :=
  account_of_trans b rfl (fun _ => rfl)
    (fun frames size => by simp [Proc.counts, (RecordCall.init_slots frames size).2.1])
    (fun trans => trans.counts b) run

theorem bytes_account (run : (tableProgram st).Exec ok TableState.empty moves s) (b : Nat) :
    (s.shared b).totalBytes = (s.procs.map (Proc.bytes b)).sum :=
  account_of_trans b rfl (fun _ => rfl)
    (fun frames size => by simp [Proc.bytes, (RecordCall.init_slots frames size).2.2])
    (fun trans => trans.bytes b) run

/-- A bucket is claimed by one call. -/
theorem claimer_unique (run : (tableProgram st).Exec ok TableState.empty moves s) {i j b : Nat}
    {d : RecordCall} (at_i : s.procs[i]? = some (.record c)) (at_j : s.procs[j]? = some (.record d))
    (claimed : c.pc.claimedSlot = some b) (claimed' : d.pc.claimedSlot = some b) : i = j := by
  by_contra ne
  have both := add_le_sum (f := Proc.claims b) ne at_i at_j
  have one : (s.shared b).occupied ≤ 1 := by
    unfold Bucket.occupied
    split <;> omega
  rw [← claims_account run b] at both
  simp only [Proc.claims, claimed, claimed', if_true] at both
  omega

/-- Where the claims are accounted for, a claimed bucket was claimed by one of the calls. -/
theorem TableState.exists_claimer {b : Nat}
    (account : (s.shared b).occupied = (s.procs.map (Proc.claims b)).sum)
    (claimed : (s.shared b).hash ≠ 0) : ∃ c ∈ s.calls, c.pc.claimedSlot = some b := by
  by_contra none
  have zero : (s.procs.map (Proc.claims b)).sum = 0 := by
    refine List.sum_eq_zero fun n inMap => ?_
    obtain ⟨p, inProcs, rfl⟩ := List.mem_map.mp inMap
    cases p with
    | scan r => rfl
    | record c =>
        simp only [Proc.claims, ite_eq_right_iff, Nat.one_ne_zero, imp_false]
        exact fun slot => none ⟨c, mem_calls_iff.mpr inProcs, slot⟩
  rw [← account, Bucket.occupied, if_neg claimed] at zero
  cases zero

theorem exists_claimer (run : (tableProgram st).Exec ok TableState.empty moves s) {b : Nat}
    (claimed : (s.shared b).hash ≠ 0) : ∃ c ∈ s.calls, c.pc.claimedSlot = some b :=
  TableState.exists_claimer (claims_account run b) claimed

end Accounts

/-! ## Masks -/

section Masks

variable {env : Option (List Char)}

/-- Masking is reduction modulo the bucket count. -/
structure Statics.Masked (st : Statics) : Prop where
  buckets_pos : 0 < st.buckets
  and_mask : ∀ x, x &&& st.mask = x % st.buckets

theorem Statics.Initialised.masked (init : st.Initialised env) : st.Masked where
  buckets_pos := by
    rw [init.buckets_eq]
    exact configuredBucketCount_pos env
  and_mask x := by
    obtain ⟨k, _, _, eq⟩ := configuredBucketCount_cases env
    rw [init.mask_eq, init.buckets_eq, eq, Nat.and_two_pow_sub_one_eq_mod]

theorem Statics.Initialised.buckets_le (init : st.Initialised env) : st.buckets ≤ 2 ^ 20 := by
  obtain ⟨k, _, most, buckets⟩ := configuredBucketCount_cases env
  rw [init.buckets_eq, buckets]
  exact Nat.pow_le_pow_right (by decide) most

theorem Statics.Masked.start_eq (masked : st.Masked) (c : RecordCall) :
    c.start st = slot st.buckets c.hash.toNat 0 := by
  rw [RecordCall.start, masked.and_mask, slot, Nat.add_zero]

/-- From the `k`-th slot of its search a call goes on to the next one, or gives
up after `buckets` slots. -/
theorem Statics.Masked.advance_slot (masked : st.Masked) (c : RecordCall) {k : Nat}
    (hk : k < st.buckets) :
    c.advance st (slot st.buckets c.hash.toNat k) =
      if k + 1 = st.buckets then .returned .dropped
      else .probe (slot st.buckets c.hash.toNat (k + 1)) := by
  unfold RecordCall.advance
  simp only [masked.and_mask, slot_succ, masked.start_eq, slot_succ_eq_zero_iff hk]

end Masks

/-! ## Searches -/

/-- The hashes in the table as keys; a zero hash is a free slot. -/
def Memory.keys (mem : Memory) (b : Nat) : Option U64 :=
  if (mem b).hash = 0 then none else some (mem b).hash

theorem Memory.keys_eq_none {b : Nat} : mem.keys b = none ↔ (mem b).hash = 0 := by
  unfold Memory.keys
  split <;> simp_all

theorem Memory.keys_eq_some {b : Nat} {h : U64} :
    mem.keys b = some h ↔ (mem b).hash ≠ 0 ∧ (mem b).hash = h := by
  unfold Memory.keys
  split <;> simp_all

/-- The first `k` slots of the call's search hold other hashes. -/
def RecordCall.Searched (st : Statics) (mem : Memory) (c : RecordCall) (k : Nat) : Prop :=
  Passed st.buckets mem.keys c.hash.toNat c.hash k

/-- What a `record` call in progress knows about the table. -/
def RecordCall.Sound (st : Statics) (mem : Memory) (c : RecordCall) : Prop :=
  match c.pc with
  | .loadBase | .loadBuckets | .loadMask => c.visited = 0
  | .probe idx =>
      c.visited < st.buckets ∧ idx = slot st.buckets c.hash.toNat c.visited ∧
        c.Searched st mem c.visited
  | .claim idx =>
      ∃ k, c.visited = k + 1 ∧ k < st.buckets ∧ idx = slot st.buckets c.hash.toNat k ∧
        c.Searched st mem k
  | .returned .dropped => c.visited = st.buckets ∧ c.Searched st mem st.buckets
  | .returned .skipped => c.visited = 0 ∧ c.frames.count.val = 0
  | .fill idx _ | .initCount idx | .initBytes idx | .publish idx | .matchCount idx
  | .matchBytes idx | .returned (.claimed idx) | .returned (.matched idx) =>
      c.visited ≤ st.buckets ∧ idx < st.buckets ∧ (mem idx).hash = c.hash

/-- Hashes in the table are found by probing, and an unclaimed bucket is blank. -/
structure Memory.Sound (st : Statics) (mem : Memory) : Prop where
  placed : Placed st.buckets BitVec.toNat mem.keys
  blank : ∀ b, (mem b).hash = 0 → mem b = Bucket.empty

/-- A hash in the table stays where it is. -/
def Memory.HashKept (mem mem' : Memory) : Prop :=
  ∀ b, (mem b).hash ≠ 0 → (mem' b).hash = (mem b).hash

theorem Memory.HashKept.refl (mem : Memory) : mem.HashKept mem := fun _ _ => rfl

theorem Memory.HashKept.trans {mem'' : Memory} (left : mem.HashKept mem')
    (right : mem'.HashKept mem'') : mem.HashKept mem'' := by
  intro b claimed
  have kept := left b claimed
  rw [right b (by rwa [kept]), kept]

/-- A step other than a claim leaves every hash as it is; a claim sets one that
was zero. -/
theorem RecordCall.Trans.hash_cases (trans : RecordCall.Trans st mem c mem' c') :
    (∀ b, (mem' b).hash = (mem b).hash) ∨
      ∃ idx, c.pc = .claim idx ∧ (mem idx).hash = 0 ∧
        mem' = mem.modify idx fun b => { b with hash := c.hash } := by
  cases trans with
  | @claim idx pc free => exact .inr ⟨idx, pc, free, rfl⟩
  | _ => exact .inl fun b => by simp only [Memory.modify_field Bucket.hash, implies_true]

theorem RecordCall.Trans.hashKept (trans : RecordCall.Trans st mem c mem' c') :
    mem.HashKept mem' := by
  rcases trans.hash_cases with same | ⟨idx, _, free, rfl⟩
  · exact fun b _ => same b
  · intro b claimed
    have elsewhere : b ≠ idx := by
      rintro rfl
      exact claimed free
    rw [Memory.modify_of_ne _ elsewhere]

theorem RecordCall.Searched.mono {k : Nat} (kept : mem.HashKept mem')
    (searched : c.Searched st mem k) : c.Searched st mem' k := by
  refine Passed.mono searched fun b other held => ?_
  obtain ⟨claimed, rfl⟩ := Memory.keys_eq_some.mp held
  exact Memory.keys_eq_some.mpr ⟨by rwa [kept b claimed], kept b claimed⟩

/-- What a call knows survives the steps of the others. -/
theorem RecordCall.Sound.mono (kept : mem.HashKept mem') (sound : c.Sound st mem) :
    c.Sound st mem' := by
  have held : ∀ {idx}, (mem idx).hash = c.hash → (mem' idx).hash = c.hash := by
    intro idx eq
    rw [kept idx (by rw [eq]; exact Frames.hash_ne_zero _), eq]
  unfold RecordCall.Sound at sound ⊢
  split at sound
  · exact sound
  · exact sound
  · exact sound
  · exact ⟨sound.1, sound.2.1, sound.2.2.mono kept⟩
  · obtain ⟨k, visited, inRange, place, searched⟩ := sound
    exact ⟨k, visited, inRange, place, searched.mono kept⟩
  · exact ⟨sound.1, sound.2.mono kept⟩
  · exact sound
  all_goals exact ⟨sound.1, sound.2.1, held sound.2.2⟩

/-! ## Steps keep the invariant -/

theorem Memory.Sound.empty : Memory.empty.Sound st :=
  ⟨Placed.of_free fun _ => rfl, fun _ _ => rfl⟩

/-- A write to a claimed bucket that leaves its hash alone. -/
theorem Memory.Sound.write {idx : Nat} {f : Bucket → Bucket} (sound : mem.Sound st)
    (claimed : (mem idx).hash ≠ 0) (keeps : ∀ b, (f b).hash = b.hash) :
    (mem.modify idx f).Sound st := by
  have same : ∀ b, (mem.modify idx f b).hash = (mem b).hash :=
    Memory.modify_field Bucket.hash keeps
  refine ⟨?_, fun b free => ?_⟩
  · have keys : (mem.modify idx f).keys = mem.keys := by
      funext b
      simp only [Memory.keys, same]
    rw [keys]
    exact sound.placed
  · rw [same] at free
    have elsewhere : b ≠ idx := by
      rintro rfl
      exact claimed free
    rw [Memory.modify_of_ne f elsewhere]
    exact sound.blank b free

/-- Claiming the free slot a search ends at. -/
theorem Memory.Sound.claim {h : U64} {k : Nat} (sound : mem.Sound st) (nonzero : h ≠ 0)
    (inRange : k < st.buckets) (searched : Passed st.buckets mem.keys h.toNat h k)
    (free : (mem (slot st.buckets h.toNat k)).hash = 0) :
    (mem.modify (slot st.buckets h.toNat k) fun b => { b with hash := h }).Sound st := by
  refine ⟨?_, fun b unclaimed => ?_⟩
  · have keys : (mem.modify (slot st.buckets h.toNat k) fun b => { b with hash := h }).keys =
        Function.update mem.keys (slot st.buckets h.toNat k) (some h) := by
      funext b
      by_cases here : b = slot st.buckets h.toNat k
      · subst here
        rw [Function.update_self, Memory.keys_eq_some, Memory.modify_self]
        exact ⟨nonzero, rfl⟩
      · rw [Function.update_of_ne here, Memory.keys, Memory.modify_of_ne _ here, Memory.keys]
    rw [keys]
    exact sound.placed.insert inRange searched (Memory.keys_eq_none.mpr free)
  · have elsewhere : b ≠ slot st.buckets h.toNat k := by
      rintro rfl
      rw [Memory.modify_self] at unclaimed
      exact nonzero unclaimed
    rw [Memory.modify_of_ne _ elsewhere] at unclaimed ⊢
    exact sound.blank b unclaimed

/-- Having found another hash in the `k`-th slot of its search, a call goes on. -/
theorem RecordCall.sound_advance (masked : st.Masked) {k : Nat}
    (inRange : k < st.buckets) (searched : c.Searched st mem k)
    (claimed : (mem (slot st.buckets c.hash.toNat k)).hash ≠ 0)
    (different : (mem (slot st.buckets c.hash.toNat k)).hash ≠ c.hash) :
    RecordCall.Sound st mem
      { c with visited := k + 1, pc := c.advance st (slot st.buckets c.hash.toNat k) } := by
  have further : c.Searched st mem (k + 1) :=
    Passed.succ searched (Memory.keys_eq_some.mpr ⟨claimed, rfl⟩) different
  rw [masked.advance_slot c inRange]
  by_cases last : k + 1 = st.buckets
  · rw [if_pos last]
    exact ⟨last, last ▸ further⟩
  · rw [if_neg last]
    exact ⟨by dsimp only; omega, rfl, further⟩

/-- A step keeps the stepping call sound. -/
theorem RecordCall.Trans.sound_call (masked : st.Masked)
    (trans : RecordCall.Trans st mem c mem' c') (sound : c.Sound st mem) : c'.Sound st mem' := by
  have write : ∀ {idx f}, idx < st.buckets → (mem idx).hash = c.hash →
      (∀ b, (f b).hash = b.hash) → c.visited ≤ st.buckets →
      c.visited ≤ st.buckets ∧ idx < st.buckets ∧ (mem.modify idx f idx).hash = c.hash := by
    intro idx f inRange held keeps visited
    exact ⟨visited, inRange, by rw [Memory.modify_self, keeps, held]⟩
  cases trans with
  | loadBase pc _ | loadBuckets pc =>
      simp only [RecordCall.Sound, pc] at sound
      exact sound
  | loadMask pc =>
      simp only [RecordCall.Sound, pc] at sound
      simp only [RecordCall.Sound, sound, masked.start_eq]
      exact ⟨masked.buckets_pos, rfl, Passed.zero⟩
  | @seeFree idx pc free =>
      simp only [RecordCall.Sound, pc] at sound
      obtain ⟨inRange, place, searched⟩ := sound
      exact ⟨c.visited, rfl, inRange, place, searched⟩
  | @seeOwn idx pc own =>
      simp only [RecordCall.Sound, pc] at sound
      obtain ⟨inRange, place, searched⟩ := sound
      exact ⟨inRange, place ▸ slot_lt masked.buckets_pos, own⟩
  | @seeOther idx pc claimed different =>
      simp only [RecordCall.Sound, pc] at sound
      obtain ⟨inRange, rfl, searched⟩ := sound
      exact RecordCall.sound_advance masked inRange searched claimed different
  | @claim idx pc free =>
      simp only [RecordCall.Sound, pc] at sound
      obtain ⟨k, visited, inRange, rfl, searched⟩ := sound
      refine ⟨?_, slot_lt masked.buckets_pos, ?_⟩
      · dsimp only
        omega
      · rw [Memory.modify_self]
        rfl
  | @loseToOwn idx pc own =>
      simp only [RecordCall.Sound, pc] at sound
      obtain ⟨k, visited, inRange, rfl, searched⟩ := sound
      exact ⟨by dsimp only; omega, slot_lt masked.buckets_pos, own⟩
  | @loseToOther idx pc claimed different =>
      simp only [RecordCall.Sound, pc] at sound
      obtain ⟨k, visited, inRange, rfl, searched⟩ := sound
      have next := RecordCall.sound_advance masked inRange searched claimed different
      rw [← visited] at next
      exact next
  | fill _ pc | fillLast _ pc | initCount pc | initBytes pc | publish pc | matchCount pc
  | matchBytes pc =>
      simp only [RecordCall.Sound, pc] at sound
      obtain ⟨visited, inRange, held⟩ := sound
      exact write inRange held (fun _ => rfl) visited

/-- **A step keeps the table and the stepping call sound.** -/
theorem RecordCall.Trans.sound {env : Option (List Char)} (init : st.Initialised env)
    (trans : RecordCall.Trans st mem c mem' c') (memSound : mem.Sound st)
    (sound : c.Sound st mem) : mem'.Sound st ∧ c'.Sound st mem' := by
  refine ⟨?_, trans.sound_call init.masked sound⟩
  have claimedOf : ∀ {idx}, (mem idx).hash = c.hash → (mem idx).hash ≠ 0 := by
    intro idx held
    rw [held]
    exact Frames.hash_ne_zero _
  cases trans with
  | @claim idx pc free =>
      simp only [RecordCall.Sound, pc] at sound
      obtain ⟨k, visited, inRange, rfl, searched⟩ := sound
      exact memSound.claim (Frames.hash_ne_zero _) inRange searched free
  | fill _ pc | fillLast _ pc | initCount pc | initBytes pc | publish pc | matchCount pc
  | matchBytes pc =>
      simp only [RecordCall.Sound, pc] at sound
      exact memSound.write (claimedOf sound.2.2) fun _ => rfl
  | _ => exact memSound

/-- The table and every call in progress on it are sound. -/
def TableState.Sound (st : Statics) (s : TableState) : Prop :=
  s.shared.Sound st ∧ ∀ c, c ∈ s.calls → c.Sound st s.shared

/-- A process of the table, against the memory. -/
def Proc.Sound (st : Statics) (mem : Memory) : Proc → Prop
  | .record c => c.Sound st mem
  | .scan _ => True

theorem tableProgram_undisturbed {env : Option (List Char)} (init : st.Initialised env)
    (ok : TableState → Move Call Unit → Prop) :
    Undisturbed (tableProgram st) ok (fun _ => True) (Memory.Sound st) (Proc.Sound st) where
  start_self := by
    intro s call mem p _ _ memSound _ started
    obtain ⟨rfl, rfl⟩ := tableProgram_start started
    refine ⟨memSound, ?_⟩
    cases call with
    | report => trivial
    | record frames size =>
        simp only [Call.init, Proc.Sound, RecordCall.init]
        by_cases none : frames.count.val = 0
        · rw [if_pos none]
          exact ⟨rfl, none⟩
        · rw [if_neg none]
          exact rfl
  start_other := by
    intro s call mem p i q _ _ _ _ started _ sound
    obtain ⟨rfl, rfl⟩ := tableProgram_start started
    exact sound
  act_self := by
    intro s i p a mem p' _ _ memSound _ sound acted
    rcases tableProgram_act acted with ⟨c, c', rfl, rfl, trans⟩ | ⟨r, r', rfl, rfl, rfl, _⟩
    · exact trans.sound init memSound sound
    · exact ⟨memSound, trivial⟩
  act_other := by
    intro s i p a mem p' j q _ _ _ _ _ acted _ _ sound
    cases q with
    | scan r => trivial
    | record d =>
        rcases tableProgram_act acted with ⟨c, c', rfl, rfl, trans⟩ | ⟨r, r', rfl, rfl, rfl, _⟩
        · exact RecordCall.Sound.mono trans.hashKept sound
        · exact sound

section Runs

variable {env : Option (List Char)} {ok : TableState → Move Call Unit → Prop}
  {moves : List (Move Call Unit)} {s s' : TableState}

theorem TableState.everywhere_iff {I : Memory → Proc → Prop} :
    Everywhere I s ↔ ∀ p, p ∈ s.procs → I s.shared p := by
  constructor
  · intro all p inProcs
    obtain ⟨i, atIndex⟩ := mem_procs_iff.mp inProcs
    exact all i p atIndex
  · exact fun all i p atIndex => all p (mem_procs_iff.mpr ⟨i, atIndex⟩)

/-- **Every state reached from the empty table is sound.** -/
theorem sound_of_exec (init : st.Initialised env)
    (run : (tableProgram st).Exec ok TableState.empty moves s) : s.Sound st := by
  obtain ⟨memSound, procs⟩ :=
    Exec.interference (fun _ _ _ _ _ _ => trivial) (tableProgram_undisturbed init ok) run trivial
      ⟨Memory.Sound.empty, fun i p atIndex => by cases atIndex⟩
  refine ⟨memSound, fun c inCalls => ?_⟩
  exact TableState.everywhere_iff.mp procs _ (mem_calls_iff.mp inCalls)

/-- Hashes stay in place over any execution. -/
theorem hashKept_of_exec (run : (tableProgram st).Exec ok s moves s') :
    s.shared.HashKept s'.shared := by
  refine Exec.sharedRel (R := Memory.HashKept) Memory.HashKept.refl
    Memory.HashKept.trans ?_ ?_ run
  · intro mem i call mem' p started
    obtain ⟨rfl, rfl⟩ := tableProgram_start started
    exact Memory.HashKept.refl _
  · intro mem i p a mem' p' acted
    rcases tableProgram_act acted with ⟨c, c', rfl, rfl, trans⟩ | ⟨r, r', rfl, rfl, rfl, _⟩
    · exact trans.hashKept
    · exact Memory.HashKept.refl _

end Runs

end ModAlloc

import KernSql.Lib.Exec
import KernSql.Lib.ByteFile
import KernSql.Common.Types

/- Whole transfers over partial system calls (`full_write` and `full_read` of
   src/storage/disk_manager.cpp).

   The state is the file as bytes and the answers the kernel has given so far.
   `env` decides the answer to every call: any part of what it was asked for, an
   interruption, an error, and for a read the end of the file. A call at a
   negative offset is refused whatever `env` says, and a read never gives bytes
   that the file does not have. The two loops take a bound on the number of calls
   they may make; a run that reaches it has no result. -/
namespace KernSql
open Exec

/-- What becomes of one `pwrite`. -/
inductive WriteResult where
  /-- `more + 1` bytes, or all that were left. -/
  | transferred (more : Nat)
  | interrupted
  | failed (reason : String)
  deriving DecidableEq, Repr

/-- What becomes of one `pread`. -/
inductive ReadResult where
  | transferred (more : Nat)
  | endOfFile
  | interrupted
  | failed (reason : String)
  deriving DecidableEq, Repr

/-- What the caller is told: a count, or -1 and an `errno`. -/
inductive Answer where
  | count (n : Nat)
  | eintr
  | errno (reason : String)
  deriving DecidableEq, Repr

structure IoEnv where
  write : Nat → WriteResult
  read : Nat → ReadResult

/-- Interruptions come finitely many in a row. -/
structure IoEnv.Fair (env : IoEnv) : Prop where
  write : ∀ i, ∃ j, i ≤ j ∧ env.write j ≠ .interrupted
  read : ∀ i, ∃ j, i ≤ j ∧ env.read j ≠ .interrupted

structure RawDisk where
  file : ByteFile
  /-- The answers to all calls so far, the last one first. -/
  answers : List Answer

abbrev IoM := Exec RawDisk Status

namespace RawDisk
variable (env : IoEnv)

/-- The answer to a call and the file it leaves. -/
def answered (d : RawDisk) (a : Answer) (file : ByteFile) : RawDisk := ⟨file, a :: d.answers⟩

/-- The message of `EINVAL`. -/
def invalidOffset : String := "Invalid argument"

def pwrite (off : Int) (bs : List UInt8) : IoM Answer := fun d =>
  if off < 0 then some (.ok (.errno invalidOffset), d.answered (.errno invalidOffset) d.file)
  else match env.write d.answers.length with
    | .transferred more =>
      let n := min (more + 1) bs.length
      some (.ok (.count n), d.answered (.count n) (d.file.write off.toNat (bs.take n)))
    | .interrupted => some (.ok .eintr, d.answered .eintr d.file)
    | .failed reason => some (.ok (.errno reason), d.answered (.errno reason) d.file)

/-- The answer and the bytes that came with it. -/
def pread (off : Int) (size : Nat) : IoM (Answer × List UInt8) := fun d =>
  if off < 0 then some (.ok (.errno invalidOffset, []), d.answered (.errno invalidOffset) d.file)
  else match env.read d.answers.length with
    | .transferred more =>
      let n := min (min (more + 1) size) (d.file.size - off.toNat)
      some (.ok (.count n, d.file.slice off.toNat n), d.answered (.count n) d.file)
    | .endOfFile => some (.ok (.count 0, []), d.answered (.count 0) d.file)
    | .interrupted => some (.ok (.eintr, []), d.answered .eintr d.file)
    | .failed reason => some (.ok (.errno reason, []), d.answered (.errno reason) d.file)

def writeFailed (off : Int) (done size : Nat) (reason : String) : Status :=
  ⟨.ioError, s!"pwrite at offset {off} failed after {done} of {size} bytes: {reason}"⟩

def readFailed (off : Int) (done size : Nat) (reason : String) : Status :=
  ⟨.ioError, s!"pread at offset {off} failed after {done} of {size} bytes: {reason}"⟩

def unexpectedEof (off : Int) (done size : Nat) : Status :=
  ⟨.corruption, s!"unexpected EOF at offset {off}: wanted {size} bytes, got {done}"⟩

/-- The loop of `full_write`, at most `calls` calls from `done` on. -/
def writeLoop (off : Int) (buf : List UInt8) : (calls done : Nat) → IoM Unit
  | 0, done => check (buf.length ≤ done)
  | calls + 1, done =>
    if done < buf.length then do
      match ← pwrite env (off + done) (buf.drop done) with
      | .eintr => writeLoop off buf calls done
      | .errno reason => fail (writeFailed off done buf.length reason)
      | .count n => writeLoop off buf calls (done + n)
    else pure ()

def fullWrite (calls : Nat) (off : Int) (buf : List UInt8) : IoM Unit := writeLoop env off buf calls 0

/-- The loop of `full_read`; `got` is the part of the buffer filled so far. -/
def readLoop (off : Int) (size : Nat) : (calls : Nat) → (got : List UInt8) → IoM (List UInt8)
  | 0, got => do
    check (size ≤ got.length)
    pure got
  | calls + 1, got =>
    if got.length < size then do
      match ← pread env (off + got.length) (size - got.length) with
      | (.eintr, _) => readLoop off size calls got
      | (.errno reason, _) => fail (readFailed off got.length size reason)
      | (.count n, bytes) =>
        -- end of file with bytes outstanding: the file is shorter than the caller believed
        if n = 0 then fail (unexpectedEof off got.length size) else readLoop off size calls (got ++ bytes)
    else pure got

def fullRead (calls : Nat) (off : Int) (size : Nat) : IoM (List UInt8) := readLoop env off size calls []

/-! One call. -/
section Calls
variable {env : IoEnv} {off : Int} {buf : List UInt8} {d d' : RawDisk}

@[simp] theorem answers_answered (a : Answer) (file : ByteFile) : (d.answered a file).answers = a :: d.answers := rfl

@[simp] theorem file_answered (a : Answer) (file : ByteFile) : (d.answered a file).file = file := rfl

/-- A `pwrite` of something writes at least one byte of it, or nothing and says why. -/
theorem pwrite_cases (env : IoEnv) (off : Int) {bs : List UInt8} (hne : bs ≠ []) (d : RawDisk) :
    ∃ a file, pwrite env off bs d = some (.ok a, d.answered a file) ∧
      ((a = .eintr ∧ file = d.file ∧ env.write d.answers.length = .interrupted) ∨
        (∃ reason, a = .errno reason ∧ file = d.file) ∨
        ∃ n, a = .count n ∧ 0 < n ∧ n ≤ bs.length ∧ 0 ≤ off ∧ file = d.file.write off.toNat (bs.take n)) := by
  unfold pwrite
  by_cases hneg : off < 0
  · rw [if_pos hneg]
    exact ⟨_, _, rfl, .inr (.inl ⟨_, rfl, rfl⟩)⟩
  · rw [if_neg hneg]
    cases hres : env.write d.answers.length with
    | transferred more =>
      have hpos := List.length_pos_iff.mpr hne
      exact ⟨_, _, rfl, .inr (.inr ⟨_, rfl, by omega, Nat.min_le_right _ _, Int.not_lt.mp hneg, rfl⟩)⟩
    | interrupted => exact ⟨_, _, rfl, .inl ⟨rfl, rfl, rfl⟩⟩
    | failed reason => exact ⟨_, _, rfl, .inr (.inl ⟨_, rfl, rfl⟩)⟩

/-- A `pread` of something gives at least one byte of the file, says that there is none, or nothing and why. -/
theorem pread_cases (env : IoEnv) (off : Int) (size : Nat) (d : RawDisk) :
    ∃ a bytes, pread env off size d = some (.ok (a, bytes), d.answered a d.file) ∧
      ((a = .eintr ∧ env.read d.answers.length = .interrupted) ∨ (∃ reason, a = .errno reason) ∨
        (a = .count 0 ∧ (env.read d.answers.length = .endOfFile ∨ size = 0 ∨ d.file.size ≤ off.toNat)) ∨
        ∃ n, a = .count n ∧ 0 < n ∧ n ≤ size ∧ 0 ≤ off ∧ off.toNat + n ≤ d.file.size ∧
          bytes = d.file.slice off.toNat n) := by
  unfold pread
  by_cases hneg : off < 0
  · rw [if_pos hneg]
    exact ⟨_, _, rfl, .inr (.inl ⟨_, rfl⟩)⟩
  · rw [if_neg hneg]
    cases hres : env.read d.answers.length with
    | transferred more =>
      refine ⟨_, _, rfl, .inr (.inr ?_)⟩
      rcases Nat.eq_zero_or_pos (min (min (more + 1) size) (d.file.size - off.toNat)) with hzero | hpos
      · exact .inl ⟨by rw [hzero], .inr (by omega)⟩
      · exact .inr ⟨_, rfl, hpos, by omega, Int.not_lt.mp hneg, by omega, rfl⟩
    | endOfFile => exact ⟨_, _, rfl, .inr (.inr (.inl ⟨rfl, .inl rfl⟩))⟩
    | interrupted => exact ⟨_, _, rfl, .inl ⟨rfl, rfl⟩⟩
    | failed reason => exact ⟨_, _, rfl, .inr (.inl ⟨_, rfl⟩)⟩

end Calls

/-! Writing. -/
section Writing
variable {env : IoEnv} {off : Int} {buf : List UInt8}

/-- What one pass of the loop comes to. -/
theorem writeLoop_succ {done : Nat} (d : RawDisk) (h : done < buf.length) :
    (∃ d', (∀ calls, writeLoop env off buf (calls + 1) done d = writeLoop env off buf calls done d') ∧
        d'.file = d.file ∧ d'.answers.length = d.answers.length + 1 ∧ env.write d.answers.length = .interrupted) ∨
      (∃ reason d', (∀ calls, writeLoop env off buf (calls + 1) done d =
        some (.error (writeFailed off done buf.length reason), d')) ∧ d'.file = d.file) ∨
      ∃ n d', (∀ calls, writeLoop env off buf (calls + 1) done d = writeLoop env off buf calls (done + n) d') ∧ 0 < n ∧
        done + n ≤ buf.length ∧ 0 ≤ off + done ∧
        d'.file = d.file.write (off + done).toNat ((buf.drop done).take n) := by
  have hne : buf.drop done ≠ [] := by
    rw [Ne, List.drop_eq_nil_iff]
    omega
  obtain ⟨a, file, hrun, hcases⟩ := pwrite_cases env (off + done) hne d
  simp only [writeLoop, if_pos h, bind_of_ok hrun]
  rcases hcases with ⟨rfl, rfl, hint⟩ | ⟨reason, rfl, rfl⟩ | ⟨n, rfl, hpos, hle, hoff, rfl⟩
  · exact .inl ⟨_, fun _ => rfl, rfl, rfl, hint⟩
  · exact .inr (.inl ⟨reason, _, fun _ => rfl, rfl⟩)
  · rw [List.length_drop] at hle
    exact .inr (.inr ⟨n, _, fun _ => rfl, hpos, by omega, hoff, rfl⟩)

/-- A run from `done` on writes the bytes up to some `t`, all of them when it returns. -/
theorem writeLoop_spec {calls done : Nat} {d d' : RawDisk} {r : Except Status Unit} (hdone : done ≤ buf.length)
    (h : writeLoop env off buf calls done d = some (r, d')) :
    ∃ t, done ≤ t ∧ t ≤ buf.length ∧ (done < t → 0 ≤ off + done) ∧
      d'.file = d.file.write (off + done).toNat ((buf.drop done).take (t - done)) ∧
      (r = .ok () ∧ t = buf.length ∨ t < buf.length ∧ ∃ reason, r = .error (writeFailed off t buf.length reason)) := by
  have hstop : ∀ {d' : RawDisk}, d'.file = d.file →
      d'.file = d.file.write (off + done).toNat ((buf.drop done).take (done - done)) := by
    intro d' hfile
    rw [Nat.sub_self, List.take_zero, ByteFile.write_nil, hfile]
  induction calls generalizing done d with
  | zero =>
    unfold writeLoop check at h
    split at h
    · next hle =>
      cases h
      exact ⟨done, le_rfl, hdone, fun hlt => absurd hlt (Nat.lt_irrefl _), hstop rfl, .inl ⟨rfl, by omega⟩⟩
    · cases h
  | succ calls ih =>
    by_cases hlt : done < buf.length
    · rcases @writeLoop_succ env off buf done d hlt with ⟨d₁, hrun, hfile, -, -⟩ | ⟨reason, d₁, hrun, hfile⟩ |
        ⟨n, d₁, hrun, hpos, hle, hoff, hfile⟩
      · rw [hrun] at h
        obtain ⟨t, hdt, ht, hoff, hfile', hend⟩ := ih hdone h (fun he => by
          rw [Nat.sub_self, List.take_zero, ByteFile.write_nil, he])
        exact ⟨t, hdt, ht, hoff, by rw [hfile', hfile], hend⟩
      · rw [hrun] at h
        cases h
        exact ⟨done, le_rfl, hdone, fun hlt => absurd hlt (Nat.lt_irrefl _), hstop hfile, .inr ⟨hlt, reason, rfl⟩⟩
      · rw [hrun] at h
        obtain ⟨t, hdt, ht, -, hfile', hend⟩ := ih hle h (fun he => by
          rw [Nat.sub_self, List.take_zero, ByteFile.write_nil, he])
        refine ⟨t, by omega, ht, fun _ => hoff, ?_, hend⟩
        -- the part this call wrote and the part the rest of the loop wrote are one write
        have hlen : ((buf.drop done).take n).length = n := by
          rw [List.length_take, List.length_drop]
          omega
        have hpos' : (off + (done + n : Nat)).toNat = (off + done).toNat + ((buf.drop done).take n).length := by
          rw [hlen]
          omega
        rw [hfile', hfile, hpos', ByteFile.write_append, ← List.drop_drop, ← List.take_add]
        congr 2
        omega
    · rw [writeLoop, if_neg hlt] at h
      cases h
      exact ⟨done, le_rfl, hdone, fun hlt => absurd hlt (Nat.lt_irrefl _), hstop rfl, .inl ⟨rfl, by omega⟩⟩

/-- More calls allowed change nothing. -/
theorem writeLoop_mono (calls : Nat) : ∀ done, Extends (writeLoop env off buf calls done)
    (writeLoop env off buf (calls + 1) done) := by
  induction calls with
  | zero =>
    intro done d r h
    unfold writeLoop check at h
    split at h
    · next hle =>
      rw [writeLoop, if_neg (Nat.not_lt.mpr hle)]
      exact h
    · cases h
  | succ calls ih =>
    intro done
    refine .ite (.bind (.refl _) fun a => ?_) (.refl _)
    cases a with
    | count n => exact ih _
    | eintr => exact ih _
    | errno reason => exact .refl _

/-- With finitely many interruptions in a row the loop comes to an end. -/
theorem writeLoop_ends (hfair : env.Fair) (done : Nat) (d : RawDisk) :
    ∃ calls x, writeLoop env off buf calls done d = some x := by
  refine loop_ends (fun done => buf.length - done) (fun d => d.answers.length) hfair.write ?_ done d
  intro done d
  by_cases hlt : done < buf.length
  · rcases @writeLoop_succ env off buf done d hlt with ⟨d', hrun, -, hlen, hint⟩ | ⟨reason, d', hrun, -⟩ |
      ⟨n, d', hrun, hpos, hle, -, -⟩
    · exact .inr (.inr ⟨d', hlen, fun hgo => hgo hint, hrun⟩)
    · exact .inl ⟨_, hrun⟩
    · exact .inr (.inl ⟨done + n, d', by omega, hrun⟩)
  · exact .inl ⟨(.ok (), d), fun _ => by rw [writeLoop, if_neg hlt]; rfl⟩

end Writing

/-! Reading. -/
section Reading
variable {env : IoEnv} {off : Int} {size : Nat}

/-- What one pass of the loop comes to. -/
theorem readLoop_succ {got : List UInt8} (d : RawDisk) (h : got.length < size) :
    ∃ a, (a = .eintr ∧ env.read d.answers.length = .interrupted ∧
        ∀ calls, readLoop env off size (calls + 1) got d = readLoop env off size calls got (d.answered a d.file)) ∨
      (∃ reason, a = .errno reason ∧ ∀ calls, readLoop env off size (calls + 1) got d =
        some (.error (readFailed off got.length size reason), d.answered a d.file)) ∨
      (a = .count 0 ∧ (env.read d.answers.length = .endOfFile ∨ d.file.size ≤ (off + got.length).toNat) ∧
        ∀ calls, readLoop env off size (calls + 1) got d =
          some (.error (unexpectedEof off got.length size), d.answered a d.file)) ∨
      ∃ n, a = .count n ∧ 0 < n ∧ got.length + n ≤ size ∧ 0 ≤ off + got.length ∧
        (off + got.length).toNat + n ≤ d.file.size ∧
        ∀ calls, readLoop env off size (calls + 1) got d =
          readLoop env off size calls (got ++ d.file.slice (off + got.length).toNat n) (d.answered a d.file) := by
  obtain ⟨a, bytes, hrun, hcases⟩ := pread_cases env (off + got.length) (size - got.length) d
  refine ⟨a, ?_⟩
  simp only [readLoop, if_pos h, bind_of_ok hrun]
  rcases hcases with ⟨rfl, hint⟩ | ⟨reason, rfl⟩ | ⟨rfl, hwhy⟩ | ⟨n, rfl, hpos, hle, hoff, hin, rfl⟩
  · exact .inl ⟨rfl, hint, fun _ => rfl⟩
  · exact .inr (.inl ⟨reason, rfl, fun _ => rfl⟩)
  · exact .inr (.inr (.inl ⟨rfl, hwhy.imp_right fun h => h.resolve_left (by omega), fun _ => rfl⟩))
  · exact .inr (.inr (.inr ⟨n, rfl, hpos, by omega, hoff, hin, fun _ => congrFun (if_neg (Nat.ne_of_gt hpos)) _⟩))

/-- The bytes read so far are those of the file. -/
def Filled (off : Int) (file : ByteFile) (got : List UInt8) : Prop :=
  got = file.slice off.toNat got.length ∧ (got = [] ∨ 0 ≤ off ∧ off.toNat + got.length ≤ file.size)

theorem Filled.append {file : ByteFile} {got : List UInt8} {n : Nat} (h : Filled off file got)
    (hoff : 0 ≤ off + got.length) (hin : (off + got.length).toNat + n ≤ file.size) :
    Filled off file (got ++ file.slice (off + got.length).toNat n) := by
  obtain ⟨hgot, hrange⟩ := h
  have hoff' : 0 ≤ off := by
    rcases hrange with rfl | hrange
    · simpa using hoff
    · exact hrange.1
  have hto : (off + got.length).toNat = off.toNat + got.length := by omega
  refine ⟨?_, .inr ⟨hoff', ?_⟩⟩
  · rw [List.length_append, ByteFile.length_slice, ByteFile.slice_append, ← hgot, hto]
  · rw [List.length_append, ByteFile.length_slice]
    omega

/-- What a read leaves: the file untouched, its bytes in a buffer that is returned, and a reason otherwise, which
is the end of the file when that was met on the way. -/
structure ReadBack (env : IoEnv) (off : Int) (size : Nat) (d : RawDisk) (r : Except Status (List UInt8))
    (d' : RawDisk) : Prop where
  file : d'.file = d.file
  value : ∀ buf, r = .ok buf → buf.length = size ∧ Filled off d.file buf
  error : ∀ e, r = .error e → ∃ done < size, (∃ reason, e = readFailed off done size reason) ∨
    e = unexpectedEof off done size ∧ ((∃ i, env.read i = .endOfFile) ∨ d.file.size ≤ (off + done).toNat)
  answers : ∃ answers, d'.answers = answers ++ d.answers ∧
    (.count 0 ∈ answers → ∃ done < size, r = .error (unexpectedEof off done size))

/-- One answer more in front of the rest of the run. -/
theorem ReadBack.cons {d d' : RawDisk} {r : Except Status (List UInt8)} {a : Answer} (ha : a ≠ .count 0)
    (h : ReadBack env off size (d.answered a d.file) r d') : ReadBack env off size d r d' := by
  obtain ⟨answers, heq, heof⟩ := h.answers
  refine ⟨h.file, h.value, h.error, answers ++ [a], by rw [heq]; simp, fun hmem => ?_⟩
  rcases List.mem_append.mp hmem with hmem | hmem
  · exact heof hmem
  · exact absurd (List.mem_singleton.mp hmem).symm ha

theorem ReadBack.done {got : List UInt8} {d : RawDisk} (hgot : Filled off d.file got) (hlen : got.length = size) :
    ReadBack env off size d (.ok got) d where
  file := rfl
  value buf hbuf := by
    cases hbuf
    exact ⟨hlen, hgot⟩
  error := by simp
  answers := ⟨[], rfl, by simp⟩

theorem readLoop_spec {calls : Nat} {got : List UInt8} {d d' : RawDisk} {r : Except Status (List UInt8)}
    (hgot : Filled off d.file got) (hle : got.length ≤ size) (h : readLoop env off size calls got d = some (r, d')) :
    ReadBack env off size d r d' := by
  induction calls generalizing got d with
  | zero =>
    by_cases hge : size ≤ got.length
    · rw [readLoop, bind_of_ok (check_of_pos hge)] at h
      cases h
      exact .done hgot (le_antisymm hle hge)
    · have hnone : (check (size ≤ got.length) : IoM Unit) d = none := if_neg hge
      rw [readLoop, bind_of_none hnone] at h
      cases h
  | succ calls ih =>
    by_cases hlt : got.length < size
    · obtain ⟨a, ⟨rfl, -, hrun⟩ | ⟨reason, rfl, hrun⟩ | ⟨rfl, hwhy, hrun⟩ | ⟨n, rfl, hpos, hn, hoff, hin, hrun⟩⟩ :=
        @readLoop_succ env off size got d hlt
      · rw [hrun] at h
        have hrest : ReadBack env off size (d.answered .eintr d.file) r d' := ih hgot hle h
        exact hrest.cons (by simp)
      · rw [hrun] at h
        cases h
        refine ⟨rfl, by simp, fun e he => ?_, [.errno reason], rfl, by simp⟩
        cases he
        exact ⟨_, hlt, .inl ⟨_, rfl⟩⟩
      · rw [hrun] at h
        cases h
        refine ⟨rfl, by simp, fun e he => ?_, [.count 0], rfl, fun _ => ⟨_, hlt, rfl⟩⟩
        cases he
        exact ⟨_, hlt, .inr ⟨rfl, hwhy.imp_left fun heof => ⟨_, heof⟩⟩⟩
      · rw [hrun] at h
        have hlen : (got ++ d.file.slice (off + got.length).toNat n).length ≤ size := by
          rw [List.length_append, ByteFile.length_slice]
          exact hn
        have hrest : ReadBack env off size (d.answered (.count n) d.file) r d' := ih (hgot.append hoff hin) hlen h
        refine hrest.cons fun hzero => ?_
        cases hzero
        exact Nat.lt_irrefl 0 hpos
    · rw [readLoop, if_neg hlt] at h
      cases h
      exact .done hgot (by omega)

/-- More calls allowed change nothing. -/
theorem readLoop_mono (calls : Nat) : ∀ got, Extends (readLoop env off size calls got)
    (readLoop env off size (calls + 1) got) := by
  induction calls with
  | zero =>
    intro got
    refine .check_bind fun hle => .of_eq ?_
    rw [readLoop, if_neg (Nat.not_lt.mpr hle)]
  | succ calls ih =>
    intro got
    refine .ite (.bind (.refl _) fun a => ?_) (.refl _)
    obtain ⟨a, bytes⟩ := a
    cases a with
    | count n => exact .ite (.refl _) (ih _)
    | eintr => exact ih _
    | errno reason => exact .refl _

/-- With finitely many interruptions in a row the loop comes to an end. -/
theorem readLoop_ends (hfair : env.Fair) (got : List UInt8) (d : RawDisk) :
    ∃ calls x, readLoop env off size calls got d = some x := by
  refine loop_ends (fun got => size - got.length) (fun d => d.answers.length) hfair.read ?_ got d
  intro got d
  by_cases hlt : got.length < size
  · obtain ⟨a, ⟨-, hint, hrun⟩ | ⟨reason, -, hrun⟩ | ⟨-, -, hrun⟩ | ⟨n, -, hpos, hle, -, -, hrun⟩⟩ :=
      @readLoop_succ env off size got d hlt
    · exact .inr (.inr ⟨_, rfl, fun hgo => hgo hint, hrun⟩)
    · exact .inl ⟨_, hrun⟩
    · exact .inl ⟨_, hrun⟩
    · refine .inr (.inl ⟨_, _, ?_, hrun⟩)
      rw [List.length_append, ByteFile.length_slice]
      omega
  · exact .inl ⟨(.ok got, d), fun _ => by rw [readLoop, if_neg hlt]; rfl⟩

end Reading

/-- Whatever the kernel answers, with finitely many interruptions in a row, both transfers come to an end. A write
changes nothing outside its range, and one that returns has put the buffer there. A read changes nothing, one that
returns has the bytes of the range, and one that meets the end of the file says so. -/
theorem full_transfers {env : IoEnv} (hfair : env.Fair) (off : Int) (d : RawDisk) :
    (∀ buf : List UInt8, ∃ calls r d', (∀ more, fullWrite env (calls + more) off buf d = some (r, d')) ∧
      (∀ i : Nat, (i < off ∨ off + buf.length ≤ i) → d'.file.bytes i = d.file.bytes i) ∧
      (r = .ok () → d'.file.slice off.toNat buf.length = buf ∧
        (buf = [] ∨ 0 ≤ off ∧ off.toNat + buf.length ≤ d'.file.size))) ∧
    ∀ size : Nat, ∃ calls r d', (∀ more, fullRead env (calls + more) off size d = some (r, d')) ∧
      d'.file = d.file ∧
      (∀ buf, r = .ok buf → buf = d.file.slice off.toNat size ∧ (size = 0 ∨ 0 ≤ off ∧ off.toNat + size ≤ d.file.size)) ∧
      ∃ answers, d'.answers = answers ++ d.answers ∧
        (.count 0 ∈ answers → ∃ done < size, r = .error (unexpectedEof off done size)) := by
  refine ⟨fun buf => ?_, fun size => ?_⟩
  · obtain ⟨calls, ⟨r, d'⟩, hrun⟩ := @writeLoop_ends env off buf hfair 0 d
    refine ⟨calls, r, d', ends_of_mono (fun calls => writeLoop_mono calls 0) hrun, ?_⟩
    obtain ⟨t, -, ht, hoff, hfile, hend⟩ := writeLoop_spec (Nat.zero_le _) hrun
    rw [Int.natCast_zero, Int.add_zero, List.drop_zero, Nat.sub_zero] at hfile
    rw [Int.natCast_zero, Int.add_zero] at hoff
    have hlen : (buf.take t).length = t := by rw [List.length_take, Nat.min_eq_left ht]
    refine ⟨fun i hi => ?_, fun hok => ?_⟩
    · rw [hfile]
      rcases Nat.eq_zero_or_pos t with rfl | hpos
      · rw [List.take_zero, ByteFile.write_nil]
      · have := hoff hpos
        apply ByteFile.bytes_write_off
        rw [hlen]
        omega
    · obtain ⟨-, rfl⟩ | ⟨-, reason, he⟩ := hend
      · rw [List.take_length] at hfile
        rw [hfile]
        refine ⟨ByteFile.slice_write_same, ?_⟩
        by_cases hnil : buf = []
        · exact .inl hnil
        · refine .inr ⟨hoff (List.length_pos_iff.mpr hnil), ?_⟩
          rw [ByteFile.size_write_of_ne hnil]
          exact le_max_right _ _
      · rw [hok] at he
        cases he
  · obtain ⟨calls, ⟨r, d'⟩, hrun⟩ := @readLoop_ends env off size hfair [] d
    refine ⟨calls, r, d', ends_of_mono (fun calls => readLoop_mono calls []) hrun, ?_⟩
    have hback := readLoop_spec ⟨rfl, .inl rfl⟩ (Nat.zero_le _) hrun
    obtain ⟨answers, heq, heof⟩ := hback.answers
    refine ⟨hback.file, fun buf hbuf => ?_, answers, heq, heof⟩
    obtain ⟨rfl, hslice, hrange⟩ := hback.value buf hbuf
    exact ⟨hslice, hrange.imp_left fun hnil => by rw [hnil]; rfl⟩

/-- Two bytes at a time, with an interruption after the first two. -/
def twoPieces : IoEnv where
  write i := if i = 1 then .interrupted else .transferred 1
  read _ := .transferred 0

/-- Four bytes in two pieces with an interruption between them. -/
theorem full_transfers_twoPieces :
    ∃ calls d', fullWrite twoPieces calls 1 [1, 2, 3, 4] ⟨.empty, []⟩ = some (.ok (), d') ∧
      d'.file.slice 1 4 = [1, 2, 3, 4] := by
  have hfair : twoPieces.Fair := by
    refine ⟨fun i => ⟨i + 2, by omega, ?_⟩, fun i => ⟨i, le_rfl, by simp [twoPieces]⟩⟩
    simp [twoPieces]
  obtain ⟨calls, r, d', hrun, -, hok⟩ := (full_transfers hfair 1 ⟨.empty, []⟩).1 [1, 2, 3, 4]
  have hret : ∃ d₁, fullWrite twoPieces 4 1 [1, 2, 3, 4] ⟨.empty, []⟩ = some (.ok (), d₁) := ⟨_, rfl⟩
  obtain ⟨d₁, hret⟩ := hret
  have hsame := ends_of_mono (fun n => @writeLoop_mono twoPieces 1 [1, 2, 3, 4] n 0) hret calls
  have hrun' := hrun 4
  rw [Nat.add_comm] at hrun'
  obtain ⟨rfl, -⟩ : r = .ok () ∧ d' = d₁ := by
    have := hrun'.symm.trans hsame
    cases this
    exact ⟨rfl, rfl⟩
  exact ⟨_, d', hrun', (hok rfl).1⟩

end RawDisk
end KernSql

import F32c.Loop
import Mathlib.Tactic

/-!
# The loader of files

`load_bin` takes the bounds of the memory for a file from the first four instructions of the
file and then stores the file chunk by chunk.  A call of `read` delivers fewer bytes than it is
asked for, or fails, as the environment decides.
-/

namespace F32c
namespace Boot
namespace FatLoader

open Loop

abbrev Byte := BitVec 8
abbrev Addr := BitVec 32

section Model

/-- What the environment does in a call of `read`: it succeeds with at most `n + 1` bytes, or
fails after it has stored at most `n`. -/
inductive Outcome where
  | got (n : Nat)
  | failed (n : Nat)
deriving DecidableEq

/-- The bytes that a call stores where `rem` are left of the file. -/
def Outcome.len (rem nbytes : Nat) : Outcome → Nat
  | .got n => min (n + 1) (min nbytes rem)
  | .failed n => min n (min nbytes rem)

/-- The call succeeds. -/
def Outcome.ok : Outcome → Bool
  | .got _ => true
  | .failed _ => false

/-- What the call returns. -/
def Outcome.ret (len : Nat) : Outcome → Int
  | .got _ => len
  | .failed _ => -1

/-- Bytes that are stored from an address on, with their addresses. -/
def place : Addr → List Byte → List (Addr × Byte)
  | _, [] => []
  | a, b :: bs => (a, b) :: place (a + 1) bs

/-- Where the loop is: it goes on, it has found the file too long, or it has ended. -/
inductive Control where
  | loop | corrupt | done
deriving DecidableEq

structure State where
  /-- what has been stored so far, in order -/
  stores : List (Addr × Byte)
  cp : Addr
  /-- the position in the file -/
  pos : Nat
  /-- the calls of `read` so far -/
  calls : Nat
  control : Control

/-- The pass of the loop that stores the file. -/
def pass (file : List Byte) (reads : Nat → Outcome) (end_ : Addr) (s : State) : State :=
  let o := reads s.calls
  let n := o.len (file.length - s.pos) 65536
  let i := o.ret n
  let cp := s.cp + BitVec.ofInt 32 i
  { stores := s.stores ++ place s.cp ((file.drop s.pos).take n)
    cp := cp
    pos := s.pos + n
    calls := s.calls + 1
    control := if end_ < cp then .corrupt else if 0 < i then .loop else .done }

/-- The test for the four instructions. -/
def cookie (hdrbuf : Nat → Byte) : Bool :=
  hdrbuf 2 = 0x10 ∧ hdrbuf 3 = 0x3c ∧ hdrbuf 6 = 0x10 ∧ hdrbuf 7 = 0x26 ∧
    hdrbuf 10 = 0x11 ∧ hdrbuf 11 = 0x3c ∧ hdrbuf 14 = 0x31 ∧ hdrbuf 7 = 0x26

/-- `*shortp`, for a pointer into the header. -/
def shortp (hdrbuf : Nat → Byte) (p : Nat) : BitVec 16 := hdrbuf (p + 1) ++ hdrbuf p

/-- The address that two immediates of the header give. -/
def bound (hdrbuf : Nat → Byte) (hi lo : Nat) : Addr :=
  (shortp hdrbuf hi).signExtend 32 <<< 16 + (shortp hdrbuf lo).signExtend 32

/-- A file and what the calls of `open` and `read` do with it. -/
structure Input where
  file : List Byte
  found : Bool
  header : Outcome
  reopened : Bool
  reads : Nat → Outcome

def Input.hdrbuf (inp : Input) (i : Nat) : Byte := inp.file.getD i 0

/-- The address at which loading starts. -/
def Input.start (inp : Input) : Addr := bound inp.hdrbuf 0 4

/-- The address before which loading has to end. -/
def Input.end_ (inp : Input) : Addr := bound inp.hdrbuf 8 12

/-- A call of `read` on a file that could not be opened again fails. -/
def Input.outcome (inp : Input) (j : Nat) : Outcome :=
  if inp.reopened then inp.reads j else .failed 0

structure Result where
  /-- the pointer that is returned -/
  ret : Addr
  /-- the bounds, where the function goes on to load the file -/
  bounds : Option (Addr × Addr)
  stores : List (Addr × Byte)
deriving DecidableEq

/-- `load_bin` on a little-endian CPU, where the test for big-endian code, which is the same, is
never reached; `fuel` bounds the loop. -/
def load_bin (fuel : Nat) (inp : Input) : Option Result :=
  if inp.found = false then some ⟨0, none, []⟩
  else if inp.header.ret (inp.header.len inp.file.length 16) ≠ 16 then some ⟨0, none, []⟩
  else if cookie inp.hdrbuf = false then some ⟨0, none, []⟩
  else
    (whileLoop (fun s => s.control = .loop) (pass inp.file inp.outcome inp.end_) fuel
      ⟨[], inp.start, 0, 0, .loop⟩).map fun s =>
        ⟨if s.control = .corrupt then 0 else inp.start, some (inp.start, inp.end_), s.stores⟩

end Model

section Spec

/-- The instruction `lui`. -/
def lui (rt : BitVec 5) (imm : BitVec 16) : BitVec 32 := 0x0f#6 ++ 0#5 ++ rt ++ imm

/-- The instruction `addiu`. -/
def addiu (rt rs : BitVec 5) (imm : BitVec 16) : BitVec 32 := 0x09#6 ++ rs ++ rt ++ imm

/-- The instruction at an offset in a file. -/
def word (file : List Byte) (p : Nat) : BitVec 32 :=
  file.getD (p + 3) 0 ++ file.getD (p + 2) 0 ++ file.getD (p + 1) 0 ++ file.getD p 0

/-- What `lui` and then `addiu` leave in the register. -/
def loaded (hi lo : BitVec 16) : Addr := (hi ++ 0#16) + lo.signExtend 32

/-- The first four instructions of a file load the bounds into `$16` and `$17`. -/
def LoadsBounds (file : List Byte) (start end_ : Addr) : Prop :=
  ∃ i0 i1 i2 i3 : BitVec 16,
    word file 0 = lui 16 i0 ∧ word file 4 = addiu 16 16 i1 ∧
    word file 8 = lui 17 i2 ∧ word file 12 = addiu 17 17 i3 ∧
    start = loaded i0 i1 ∧ end_ = loaded i2 i3

/-- What the loader is to do: it goes on only with a file that loads its bounds, it stores only
between them, and it returns a pointer only where it has stored the whole file. -/
structure Meets (inp : Input) (r : Result) : Prop where
  header : ∀ start end_, r.bounds = some (start, end_) → LoadsBounds inp.file start end_
  inside : ∀ w ∈ r.stores, ∃ start end_, r.bounds = some (start, end_) ∧ start ≤ w.1 ∧ w.1 < end_
  whole : r.ret ≠ 0 → ∃ end_, r.bounds = some (r.ret, end_) ∧ r.stores = place r.ret inp.file

/-- The header is read in full and passes the test. -/
def Input.Enters (inp : Input) : Prop :=
  inp.found = true ∧ inp.header.ret (inp.header.len inp.file.length 16) = 16 ∧
    cookie inp.hdrbuf = true

/-- The position in a file after some calls of `read`. -/
def offset (file : List Byte) (reads : Nat → Outcome) : Nat → Nat
  | 0 => 0
  | j + 1 => offset file reads j + (reads j).len (file.length - offset file reads j) 65536

/-- The first call that fails or is made at the end of the file. -/
def LastCall (file : List Byte) (reads : Nat → Outcome) (j : Nat) : Prop :=
  (∀ i < j, (reads i).ok = true ∧ offset file reads i < file.length) ∧
    ((reads j).ok = false ∨ offset file reads j = file.length)

/-- The bytes that the calls of `read` deliver, up to the one that fails or finds the end of the
file, fit between the bounds, and they are the whole file unless no pointer is returned for want
of an address. -/
def Input.Fits (inp : Input) : Prop :=
  ∃ j, LastCall inp.file inp.outcome j ∧
    offset inp.file inp.outcome (j + 1) ≤ inp.end_.toNat - inp.start.toNat ∧
    (offset inp.file inp.outcome (j + 1) = inp.file.length ∨ inp.start = 0 ∨
      inp.end_.toNat + 1 < inp.start.toNat)

end Spec

section Stores

theorem place_append (a : Addr) (xs ys : List Byte) :
    place a (xs ++ ys) = place a xs ++ place (a + BitVec.ofNat 32 xs.length) ys := by
  induction xs generalizing a with
  | nil =>
      simp [place]
  | cons x xs ih =>
      have hnext : a + 1 + BitVec.ofNat 32 xs.length = a + BitVec.ofNat 32 (xs.length + 1) := by
        rw [BitVec.ofNat_add]
        ac_rfl
      rw [List.cons_append, place, ih, hnext]
      rfl

theorem mem_place {a : Addr} {bytes : List Byte} {w : Addr × Byte} (h : w ∈ place a bytes) :
    ∃ i < bytes.length, w.1 = a + BitVec.ofNat 32 i := by
  induction bytes generalizing a with
  | nil => cases h
  | cons b bytes ih =>
      rcases List.mem_cons.1 h with rfl | h
      · exact ⟨0, by simp, by simp⟩
      · rcases ih h with ⟨i, hi, hw⟩
        refine ⟨i + 1, by simpa using hi, ?_⟩
        rw [hw, BitVec.ofNat_add]
        ac_rfl

theorem exists_mem_place (a : Addr) {bytes : List Byte} {i : Nat} (hi : i < bytes.length) :
    ∃ w ∈ place a bytes, w.1 = a + BitVec.ofNat 32 i := by
  induction bytes generalizing a i with
  | nil => simp at hi
  | cons b bytes ih =>
      cases i with
      | zero => exact ⟨(a, b), by simp [place], by simp⟩
      | succ i =>
          rcases ih (a + 1) (by simpa using hi) with ⟨w, hw, ha⟩
          refine ⟨w, List.mem_cons_of_mem _ hw, ?_⟩
          rw [ha, BitVec.ofNat_add]
          ac_rfl

theorem length_place (a : Addr) (bytes : List Byte) : (place a bytes).length = bytes.length := by
  induction bytes generalizing a with
  | nil => rfl
  | cons b bytes ih => simp [place, ih]

/-- Bytes that are stored one after the other lie between two addresses just where they fit. -/
theorem place_inside_iff (start end_ : Addr) (bytes : List Byte) :
    (∀ w ∈ place start bytes, start ≤ w.1 ∧ w.1 < end_) ↔
      bytes.length ≤ end_.toNat - start.toNat := by
  constructor
  · intro h
    by_contra hlong
    rcases exists_mem_place start (show end_.toNat - start.toNat < bytes.length by omega)
      with ⟨w, hw, ha⟩
    have hin := h w hw
    rw [ha, BitVec.le_def, BitVec.lt_def, BitVec.toNat_add, BitVec.toNat_ofNat] at hin
    have := start.isLt
    have := end_.isLt
    omega
  · intro h w hw
    rcases mem_place hw with ⟨i, hi, ha⟩
    rw [ha, BitVec.le_def, BitVec.lt_def, BitVec.toNat_add, BitVec.toNat_ofNat]
    have := start.isLt
    have := end_.isLt
    omega

end Stores

section Header

theorem lui_eq (op : Byte) (rt : BitVec 5) (b0 b1 : Byte) (h : op = 0#3 ++ rt) :
    (0x3c#8 ++ op ++ b1 ++ b0 : BitVec 32) = lui rt (b1 ++ b0) := by
  subst h
  apply BitVec.eq_of_getLsbD_eq
  intro i hi
  simp only [lui, BitVec.getLsbD_append]
  interval_cases i <;> simp

theorem addiu_16_eq (b0 b1 : Byte) :
    (0x26#8 ++ 0x10#8 ++ b1 ++ b0 : BitVec 32) = addiu 16 16 (b1 ++ b0) := by
  apply BitVec.eq_of_getLsbD_eq
  intro i hi
  simp only [addiu, BitVec.getLsbD_append]
  interval_cases i <;> simp

theorem addiu_17_eq (b0 b1 : Byte) :
    (0x26#8 ++ 0x31#8 ++ b1 ++ b0 : BitVec 32) = addiu 17 17 (b1 ++ b0) := by
  apply BitVec.eq_of_getLsbD_eq
  intro i hi
  simp only [addiu, BitVec.getLsbD_append]
  interval_cases i <;> simp

theorem high_byte (b0 b1 b2 b3 : Byte) :
    (b3 ++ b2 ++ b1 ++ b0 : BitVec 32).extractLsb' 24 8 = b3 := by
  apply BitVec.eq_of_getLsbD_eq
  intro i hi
  simp only [BitVec.getLsbD_extractLsb', BitVec.getLsbD_append]
  interval_cases i <;> simp

theorem bound_eq (hdrbuf : Nat → Byte) (hi lo : Nat) :
    bound hdrbuf hi lo = loaded (shortp hdrbuf hi) (shortp hdrbuf lo) := by
  have hshift : ∀ x : BitVec 16, x.signExtend 32 <<< 16 = x ++ 0#16 := by
    intro x
    apply BitVec.eq_of_getLsbD_eq
    intro i hi
    simp only [BitVec.getLsbD_append]
    interval_cases i <;> simp [BitVec.getElem_signExtend]
  rw [bound, hshift, loaded]

/-- The test of the header leaves out the last byte of the fourth instruction. -/
theorem loadsBounds_iff
    {file : List Byte} (h : cookie (fun i => file.getD i 0) = true) :
    LoadsBounds file (bound (fun i => file.getD i 0) 0 4) (bound (fun i => file.getD i 0) 8 12) ↔
      file.getD 15 0 = 0x26 := by
  simp only [cookie, decide_eq_true_eq] at h
  rcases h with ⟨h2, h3, h6, h7, h10, h11, h14, -⟩
  constructor
  · rintro ⟨-, -, -, i3, -, -, -, hw, -, -⟩
    have hbyte := congrArg (BitVec.extractLsb' 24 8) hw
    rw [word, high_byte] at hbyte
    rw [hbyte]
    apply BitVec.eq_of_getLsbD_eq
    intro i hi
    simp only [addiu, BitVec.getLsbD_extractLsb', BitVec.getLsbD_append]
    interval_cases i <;> simp
  · intro h15
    refine ⟨_, _, _, _, ?_, ?_, ?_, ?_, bound_eq _ 0 4, bound_eq _ 8 12⟩
    · rw [word, h2, h3]
      exact lui_eq _ 16 _ _ rfl
    · rw [word, h6, h7]
      exact addiu_16_eq _ _
    · rw [word, h10, h11]
      exact lui_eq _ 17 _ _ rfl
    · rw [word, h14, h15]
      exact addiu_17_eq _ _

end Header

section Calls

variable {file : List Byte} {reads : Nat → Outcome}

theorem len_le (o : Outcome) (rem nbytes : Nat) : o.len rem nbytes ≤ rem := by
  cases o <;> simp only [Outcome.len] <;> omega

theorem offset_le (file : List Byte) (reads : Nat → Outcome) (j : Nat) :
    offset file reads j ≤ file.length := by
  induction j with
  | zero =>
      exact Nat.zero_le _
  | succ j ih =>
      have := len_le (reads j) (file.length - offset file reads j) 65536
      rw [offset]
      omega

theorem offset_mono (file : List Byte) (reads : Nat → Outcome) {i j : Nat} (h : i ≤ j) :
    offset file reads i ≤ offset file reads j := by
  induction h with
  | refl => exact le_refl _
  | step _ ih => exact ih.trans (Nat.le_add_right _ _)

/-- A call that succeeds before the end of the file moves on. -/
theorem len_pos {o : Outcome} {rem : Nat} (hok : o.ok = true) (hrem : 0 < rem) :
    0 < o.len rem 65536 := by
  cases o with
  | got n =>
      simp only [Outcome.len]
      omega
  | failed n => cases hok

/-- There is only one last call. -/
theorem lastCall_unique {i j : Nat} (hi : LastCall file reads i) (hj : LastCall file reads j) :
    i = j := by
  rcases Nat.lt_trichotomy i j with h | h | h
  · rcases hj.1 i h with ⟨hok, hoff⟩
    rcases hi.2 with hbad | hend
    · rw [hok] at hbad
      cases hbad
    · omega
  · exact h
  · rcases hi.1 j h with ⟨hok, hoff⟩
    rcases hj.2 with hbad | hend
    · rw [hok] at hbad
      cases hbad
    · omega

end Calls

section Loop

/-- What holds while the loop goes on, and how it has ended. -/
structure Loading (inp : Input) (s : State) : Prop where
  stores : s.stores = place inp.start (inp.file.take (offset inp.file inp.outcome s.calls))
  before : s.control = .loop →
    s.calls ≤ offset inp.file inp.outcome s.calls ∧
    s.pos = offset inp.file inp.outcome s.calls ∧
    s.cp = inp.start + BitVec.ofNat 32 s.pos ∧
    ∀ i < s.calls, (inp.outcome i).ok = true ∧ offset inp.file inp.outcome i < inp.file.length
  after : s.control ≠ .loop → ∃ j, s.calls = j + 1 ∧
    (LastCall inp.file inp.outcome j ∧
        ((inp.outcome j).ok = false → (s.control = .corrupt ↔
          inp.end_ < inp.start + BitVec.ofNat 32 (offset inp.file inp.outcome j) - 1)) ∨
      (∀ i ≤ j, (inp.outcome i).ok = true) ∧ s.control = .corrupt ∧
        inp.end_.toNat - inp.start.toNat < offset inp.file inp.outcome s.calls)

variable {inp : Input} {s : State}

/-- A pass stores the next bytes of the file after those that are stored. -/
theorem pass_stores (h : Loading inp s) (hloop : s.control = .loop) :
    (pass inp.file inp.outcome inp.end_ s).stores =
      place inp.start (inp.file.take (offset inp.file inp.outcome (s.calls + 1))) := by
  rcases h.before hloop with ⟨-, hpos, hcp, -⟩
  have hle := offset_le inp.file inp.outcome s.calls
  rw [pass, offset, ← hpos, List.take_add, place_append, h.stores, ← hpos, hcp, List.length_take,
    Nat.min_eq_left (by omega)]

/-- A pass in which the call succeeds. -/
theorem pass_got (hfile : 0 < inp.file.length) (h : Loading inp s) (hloop : s.control = .loop)
    {k : Nat} (ho : inp.outcome s.calls = .got k) :
    Loading inp (pass inp.file inp.outcome inp.end_ s) := by
  have hstored := pass_stores h hloop
  rcases h.before hloop with ⟨hcalls, hpos, hcp, hall⟩
  have hle := offset_le inp.file inp.outcome s.calls
  obtain ⟨n, hn⟩ : ∃ n, (Outcome.got k).len (inp.file.length - s.pos) 65536 = n := ⟨_, rfl⟩
  have hnext : offset inp.file inp.outcome (s.calls + 1) = s.pos + n := by
    rw [offset, ← hpos, ho, hn]
  have hmin : n = min (k + 1) (min 65536 (inp.file.length - s.pos)) := hn.symm
  have hok : ∀ i ≤ s.calls, (inp.outcome i).ok = true := by
    intro i hi
    rcases Nat.lt_or_eq_of_le hi with hi | rfl
    · exact (hall i hi).1
    · rw [ho]
      rfl
  have hcp' : s.cp + BitVec.ofInt 32 n = inp.start + BitVec.ofNat 32 (s.pos + n) := by
    rw [hcp, BitVec.ofNat_add, BitVec.ofInt_natCast]
    ac_rfl
  have hpass : pass inp.file inp.outcome inp.end_ s =
      ⟨(pass inp.file inp.outcome inp.end_ s).stores, inp.start + BitVec.ofNat 32 (s.pos + n),
        s.pos + n, s.calls + 1,
        if inp.end_ < inp.start + BitVec.ofNat 32 (s.pos + n) then .corrupt
        else if 0 < (n : Int) then .loop else .done⟩ := by
    simp only [pass, ho, hn, Outcome.ret, hcp']
  rw [hpass]
  constructor
  · exact hstored
  · intro hc
    dsimp only at hc ⊢
    rw [hnext]
    have hpos' : 0 < n := by
      split_ifs at hc with h1 h2
      omega
    refine ⟨by omega, rfl, rfl, ?_⟩
    intro i hi
    refine ⟨hok i (by omega), ?_⟩
    have := offset_mono inp.file inp.outcome (show i ≤ s.calls by omega)
    omega
  · intro hc
    dsimp only at hc ⊢
    refine ⟨s.calls, rfl, ?_⟩
    split_ifs at hc ⊢ with h1 h2
    · -- the file reaches over the end
      right
      refine ⟨hok, rfl, ?_⟩
      rw [hnext]
      rw [BitVec.lt_def, BitVec.toNat_add, BitVec.toNat_ofNat] at h1
      omega
    · exact absurd rfl hc
    · -- nothing is left of the file
      left
      refine ⟨⟨hall, Or.inr (by omega)⟩, ?_⟩
      intro hbad
      rw [hok s.calls (le_refl _)] at hbad
      cases hbad

/-- A pass in which the call fails: the pointer goes back by one byte. -/
theorem pass_failed (h : Loading inp s) (hloop : s.control = .loop) {k : Nat}
    (ho : inp.outcome s.calls = .failed k) :
    Loading inp (pass inp.file inp.outcome inp.end_ s) := by
  have hstored := pass_stores h hloop
  rcases h.before hloop with ⟨-, hpos, hcp, hall⟩
  have hcp' : s.cp + BitVec.ofInt 32 (-1) = inp.start + BitVec.ofNat 32 s.pos - 1 := by
    rw [hcp, BitVec.sub_eq_add_neg]
    rfl
  have hcontrol : (pass inp.file inp.outcome inp.end_ s).control =
      if inp.end_ < inp.start + BitVec.ofNat 32 s.pos - 1 then .corrupt else .done := by
    simp only [pass, ho, Outcome.ret, hcp']
    rw [if_neg (show ¬(0 : Int) < -1 by decide)]
  constructor
  · exact hstored
  · intro hc
    rw [hcontrol] at hc
    split_ifs at hc
  · intro _
    refine ⟨s.calls, rfl, Or.inl ⟨⟨hall, Or.inl ?_⟩, ?_⟩⟩
    · rw [ho]
      rfl
    · intro _
      rw [hcontrol, ← hpos]
      split_ifs with hlt
      · exact iff_of_true rfl hlt
      · exact iff_of_false (by decide) hlt

theorem pass_shorter (h : Loading inp s) (hloop : s.control = .loop) :
    (if (pass inp.file inp.outcome inp.end_ s).control = .loop then
        inp.file.length + 2 - (pass inp.file inp.outcome inp.end_ s).calls else 0) <
      if s.control = .loop then inp.file.length + 2 - s.calls else 0 := by
  rcases h.before hloop with ⟨hcalls, -, -, -⟩
  have hle := offset_le inp.file inp.outcome s.calls
  have hnext : (pass inp.file inp.outcome inp.end_ s).calls = s.calls + 1 := rfl
  rw [if_pos hloop, hnext]
  split_ifs <;> omega

/-- The loop ends, within two passes more than the file has bytes. -/
theorem load_ends (hfile : 0 < inp.file.length) {fuel : Nat} (hfuel : inp.file.length + 2 < fuel) :
    ∃ s, whileLoop (fun s => s.control = .loop) (pass inp.file inp.outcome inp.end_) fuel
        ⟨[], inp.start, 0, 0, .loop⟩ = some s ∧ Loading inp s ∧
      decide (s.control = .loop) = false := by
  apply whileLoop_rule (Loading inp)
    (fun s => if s.control = .loop then inp.file.length + 2 - s.calls else 0)
  · intro s h htest
    have hloop := of_decide_eq_true htest
    refine ⟨?_, pass_shorter h hloop⟩
    cases ho : inp.outcome s.calls with
    | got k => exact pass_got hfile h hloop ho
    | failed k => exact pass_failed h hloop ho
  · constructor
    · simp [offset, place]
    · intro _
      exact ⟨le_refl _, rfl, by simp, by simp⟩
    · intro hc
      exact absurd rfl hc
  · simpa using hfuel

end Loop

section Result

variable {inp : Input} {s : State}

/-- What is returned after the loop. -/
def result (inp : Input) (s : State) : Result :=
  ⟨if s.control = .corrupt then 0 else inp.start, some (inp.start, inp.end_), s.stores⟩

theorem inside_iff (h : Loading inp s) :
    (∀ w ∈ (result inp s).stores, ∃ start end_, (result inp s).bounds = some (start, end_) ∧
        start ≤ w.1 ∧ w.1 < end_) ↔
      offset inp.file inp.outcome s.calls ≤ inp.end_.toNat - inp.start.toNat := by
  have hlen : (inp.file.take (offset inp.file inp.outcome s.calls)).length =
      offset inp.file inp.outcome s.calls := by
    rw [List.length_take, Nat.min_eq_left (offset_le _ _ _)]
  rw [← hlen, ← place_inside_iff, ← h.stores]
  constructor
  · intro hin w hw
    rcases hin w hw with ⟨start, end_, hb, hw⟩
    cases hb
    exact hw
  · intro hin w hw
    exact ⟨inp.start, inp.end_, rfl, hin w hw⟩

theorem whole_iff (h : Loading inp s) :
    ((result inp s).ret ≠ 0 → ∃ end_, (result inp s).bounds = some ((result inp s).ret, end_) ∧
        (result inp s).stores = place (result inp s).ret inp.file) ↔
      (s.control = .corrupt ∨ inp.start = 0 ∨
        offset inp.file inp.outcome s.calls = inp.file.length) := by
  have hle := offset_le inp.file inp.outcome s.calls
  have hall : s.stores = place inp.start inp.file ↔
      offset inp.file inp.outcome s.calls = inp.file.length := by
    rw [h.stores]
    constructor
    · intro heq
      have hlen := congrArg List.length heq
      rw [length_place, length_place, List.length_take] at hlen
      omega
    · intro heq
      rw [heq, List.take_length]
  by_cases hc : s.control = .corrupt
  · exact iff_of_true (fun hne => absurd (if_pos hc) hne) (Or.inl hc)
  · have hret : (result inp s).ret = inp.start := if_neg hc
    rw [hret]
    constructor
    · intro hwhole
      by_cases h0 : inp.start = 0
      · exact Or.inr (Or.inl h0)
      · rcases hwhole h0 with ⟨-, -, hstores⟩
        exact Or.inr (Or.inr (hall.1 hstores))
    · rintro (hbad | h0 | hend) hne
      · exact absurd hbad hc
      · exact absurd h0 hne
      · exact ⟨inp.end_, rfl, hall.2 hend⟩

/-- Where the bytes fit, the loop finds the file too long after an error just where the bounds lie
the wrong way round. -/
theorem corrupt_iff
    {start end_ : Addr} {p : Nat} (h0 : start ≠ 0) (hfit : p ≤ end_.toNat - start.toNat) :
    end_ < start + BitVec.ofNat 32 p - 1 ↔ end_.toNat + 1 < start.toNat := by
  have hpos : start.toNat ≠ 0 := fun h => h0 (BitVec.eq_of_toNat_eq h)
  have hs := start.isLt
  have he := end_.isLt
  rw [BitVec.lt_def, BitVec.toNat_sub, BitVec.toNat_add, BitVec.toNat_ofNat]
  have h1 : (1 : Addr).toNat = 1 := rfl
  rw [h1]
  omega

/-- The loop has come to the last call, and the file is all there or the call failed. -/
theorem fits_of_last
    {j : Nat} (hj : s.calls = j + 1) (hlast : LastCall inp.file inp.outcome j)
    (hfailed : (inp.outcome j).ok = false → (s.control = .corrupt ↔
      inp.end_ < inp.start + BitVec.ofNat 32 (offset inp.file inp.outcome j) - 1)) :
    (offset inp.file inp.outcome s.calls ≤ inp.end_.toNat - inp.start.toNat ∧
        (s.control = .corrupt ∨ inp.start = 0 ∨
          offset inp.file inp.outcome s.calls = inp.file.length)) ↔ inp.Fits := by
  have hmono := offset_mono inp.file inp.outcome (Nat.le_add_right j 1)
  have hle := offset_le inp.file inp.outcome (j + 1)
  have hfits : inp.Fits ↔
      offset inp.file inp.outcome (j + 1) ≤ inp.end_.toNat - inp.start.toNat ∧
      (offset inp.file inp.outcome (j + 1) = inp.file.length ∨ inp.start = 0 ∨
        inp.end_.toNat + 1 < inp.start.toNat) := by
    constructor
    · rintro ⟨i, hi, hrest⟩
      rw [← lastCall_unique hi hlast]
      exact hrest
    · intro hrest
      exact ⟨j, hlast, hrest⟩
  rw [hfits, hj]
  apply and_congr_right
  intro hfit
  by_cases h0 : inp.start = 0
  · simp [h0]
  by_cases hwhole : offset inp.file inp.outcome (j + 1) = inp.file.length
  · simp [hwhole]
  simp only [h0, hwhole, false_or, or_false]
  cases hkind : (inp.outcome j).ok with
  | true =>
      rcases hlast.2 with hbad | hend
      · rw [hkind] at hbad
        cases hbad
      · omega
  | false =>
      rw [hfailed hkind]
      exact corrupt_iff h0 (by omega)

/-- Where a pass has stored over the end, what the calls deliver does not fit. -/
theorem not_fits_of_over
    {j : Nat} (hok : ∀ i ≤ j, (inp.outcome i).ok = true)
    (hover : inp.end_.toNat - inp.start.toNat < offset inp.file inp.outcome (j + 1)) :
    ¬inp.Fits := by
  rintro ⟨i, hlast, hfit, -⟩
  have hle := offset_le inp.file inp.outcome (j + 1)
  have hi := offset_mono inp.file inp.outcome (Nat.le_add_right i 1)
  rcases Nat.lt_or_ge i j with hlt | hge
  · rcases hlast.2 with hbad | hend
    · rw [hok i (by omega)] at hbad
      cases hbad
    · omega
  · have := offset_mono inp.file inp.outcome (show j + 1 ≤ i + 1 by omega)
    omega

theorem result_meets_iff (h : Loading inp s) (hdone : s.control ≠ .loop) :
    Meets inp (result inp s) ↔ LoadsBounds inp.file inp.start inp.end_ ∧ inp.Fits := by
  have hsplit : Meets inp (result inp s) ↔ LoadsBounds inp.file inp.start inp.end_ ∧
      offset inp.file inp.outcome s.calls ≤ inp.end_.toNat - inp.start.toNat ∧
      (s.control = .corrupt ∨ inp.start = 0 ∨
        offset inp.file inp.outcome s.calls = inp.file.length) := by
    rw [← inside_iff h, ← whole_iff h]
    constructor
    · intro hmeets
      exact ⟨hmeets.header _ _ rfl, hmeets.inside, hmeets.whole⟩
    · rintro ⟨hheader, hinside, hwhole⟩
      refine ⟨?_, hinside, hwhole⟩
      intro start end_ hb
      cases hb
      exact hheader
  rw [hsplit]
  apply and_congr_right
  intro _
  rcases h.after hdone with ⟨j, hj, ⟨hlast, hfailed⟩ | ⟨hok, -, hover⟩⟩
  · exact fits_of_last hj hlast hfailed
  · apply iff_of_false
    · rintro ⟨hfit, -⟩
      omega
    · exact not_fits_of_over hok (hj ▸ hover)

/-- A file whose header is read in full has at least 16 bytes. -/
theorem Input.Enters.long (h : inp.Enters) : 16 ≤ inp.file.length := by
  have hret := h.2.1
  cases ho : inp.header with
  | got n =>
      rw [ho] at hret
      simp only [Outcome.ret, Outcome.len] at hret
      omega
  | failed n =>
      rw [ho] at hret
      cases hret

/-- The loader does what it is to do just where the last byte of the header, which it does not
test, is right, and what the calls deliver fits. -/
theorem load_bin_iff (inp : Input) {fuel : Nat} (hfuel : inp.file.length + 2 < fuel) :
    ∃ r, load_bin fuel inp = some r ∧
      (Meets inp r ↔ (inp.Enters → inp.file.getD 15 0 = 0x26 ∧ inp.Fits)) := by
  by_cases henters : inp.Enters
  · have hlong := henters.long
    have hfile : 0 < inp.file.length := by omega
    rcases load_ends hfile hfuel with ⟨s, hrun, h, hdone⟩
    refine ⟨result inp s, ?_, ?_⟩
    · rcases henters with ⟨hfound, hret, hcookie⟩
      rw [load_bin, if_neg (by simp [hfound]), if_neg (by simp [hret]), if_neg (by simp [hcookie]),
        hrun]
      rfl
    · have hheader : LoadsBounds inp.file inp.start inp.end_ ↔ inp.file.getD 15 0 = 0x26 :=
        loadsBounds_iff henters.2.2
      rw [result_meets_iff h (of_decide_eq_false hdone), hheader]
      exact ⟨fun hmeets _ => hmeets, fun hmeets => hmeets henters⟩
  · refine ⟨⟨0, none, []⟩, ?_, ?_⟩
    · rw [load_bin]
      split_ifs with h1 h2 h3
      · rfl
      · rfl
      · rfl
      · exact absurd ⟨by simpa using h1, by simpa using h2, by simpa using h3⟩ henters
    · apply iff_of_true
      · refine ⟨?_, ?_, ?_⟩
        · intro start end_ hb
          cases hb
        · intro w hw
          cases hw
        · intro hne
          exact absurd rfl hne
      · intro h
        exact absurd h henters

/-- A file of four instructions that is to be loaded from 0x80000000 up to 0x80000010. -/
def smallFile : List Byte :=
  [0x00, 0x80, 0x10, 0x3c, 0x00, 0x00, 0x10, 0x26, 0x00, 0x80, 0x11, 0x3c, 0x10, 0x00, 0x31, 0x26]

/-- The small file, whose first call of `read` after the header does as is said. -/
def smallInput (o : Outcome) : Input where
  file := smallFile
  found := true
  header := .got 15
  reopened := true
  reads := fun _ => o

theorem load_bin_small :
    ∃ r, load_bin 20 (smallInput (.got 9)) = some r ∧
      (Meets (smallInput (.got 9)) r ↔ ((smallInput (.got 9)).Enters →
        smallFile.getD 15 0 = 0x26 ∧ (smallInput (.got 9)).Fits)) :=
  load_bin_iff (smallInput (.got 9)) (by decide)

/-- After an error the loader returns the address of a file of which it has stored nothing. -/
theorem load_bin_error :
    ∃ r, load_bin 20 (smallInput (.failed 0)) = some r ∧ r.ret = 0x80000000 ∧ r.stores = [] ∧
      ¬Meets (smallInput (.failed 0)) r := by
  refine ⟨⟨0x80000000, some (0x80000000, 0x80000010), []⟩, by decide +kernel, rfl, rfl, ?_⟩
  intro hmeets
  rcases hmeets.whole (by decide) with ⟨-, -, hstores⟩
  cases hstores

end Result

end FatLoader
end Boot
end F32c

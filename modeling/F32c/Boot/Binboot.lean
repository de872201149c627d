import F32c.Boot.Srec

/-!
# The binary boot protocol

Two loaders share one wire format: `binboot` of `boot/sio/binboot.c` and
`sio_load_binary` of `boot/rom/loader.c`.  Both are embedded as one machine that
takes a step for each received byte; they differ in what they make of the bytes
that are no command of the common set.  Reading the status register until a byte
is there, the LEDs and the set-up of the stack before the jump are left out.

The encoder's side is a list of commands with a meaning of their own.  The framing
depends on the state: a block has as many data bytes as the last `len := base` says.
-/

namespace F32c
namespace Binboot

open Srec (Byte Word storeBytes)

section Loaders

/-- What the next received byte is taken for. -/
inductive Mode where
  | command
  | addr (i : Nat)
  | block (i : Word)
  | left (entry : Word)
deriving DecidableEq

/-- The registers of a loader, the memory, what was sent and what was written to `IO_SIO_BAUD`. -/
structure State where
  crc : Word := 0#32
  base : Word := 0#32
  len : Word := 0#32
  mem : Word → Byte
  replies : List Byte := []
  baud : List Byte := []
  mode : Mode := .command

/-- One byte of a block added to the checksum. -/
def addByte (crc t : Word) : Word := (crc >>> 31 ||| crc <<< 1) + t

/-- The loop that sends the bytes of `t`, the upper ones first. -/
def pcharWord (t : Word) : Nat → List Byte
  | 0 => []
  | n + 1 => (t >>> 24).setWidth 8 :: pcharWord (t <<< 8) n

/-- Command `0xa1` of the ROM loader; the value of a `char` is up to the compiler. -/
def readBlock (charValue : Byte → Word) (s : State) : State :=
  (List.range s.len.toNat).foldl
    (fun s i =>
      let t := charValue (s.mem (s.base + BitVec.ofNat 32 i))
      { s with crc := addByte s.crc t, replies := s.replies ++ [t.setWidth 8] })
    { s with crc := 0#32 }

/-- Command `0xb0` of the ROM loader, which takes the base for a speed. -/
def setBaud (s : State) : State :=
  { s with
    baud := s.baud ++
      [if s.base = 3000000#32 then 15#8 else if s.base = 1000000#32 then 13#8 else 9#8] }

inductive Loader where
  | binboot
  | sioLoadBinary (charValue : Byte → Word)

/-- A byte that is none of the common commands: `binboot` returns to the hex loader at zero. -/
def Loader.other : Loader → State → Byte → State
  | .binboot, s, _ => { s with mode := .left 0#32 }
  | .sioLoadBinary charValue, s, ch =>
    if ch = 0xa1#8 then readBlock charValue s
    else if ch = 0xb0#8 then setBaud s
    else s

/-- The `switch` over the command byte. -/
def Loader.command (l : Loader) (s : State) (ch : Byte) : State :=
  if ch = 0x80#8 then { s with mode := .addr 0 }
  else if ch = 0x81#8 then { s with replies := s.replies ++ pcharWord s.crc 4 }
  else if ch = 0x90#8 then { s with len := s.base }
  else if ch = 0x91#8 then { s with crc := s.base }
  else if ch = 0xa0#8 then
    { s with crc := 0#32, mode := if 0#32 < s.len then .block 0#32 else .command }
  else if ch = 0xb1#8 then { s with mode := .left s.base }
  else l.other s ch

/-- One received byte. -/
def Loader.step (l : Loader) (s : State) (ch : Byte) : State :=
  match s.mode with
  | .command => l.command s ch
  | .addr i =>
    { s with
      base := (s.base <<< 8) + ch.setWidth 32
      mode := if i + 1 < 4 then .addr (i + 1) else .command }
  | .block i =>
    { s with
      crc := addByte s.crc (ch.setWidth 32)
      mem := Function.update s.mem (s.base + i) ch
      mode := if i + 1#32 < s.len then .block (i + 1#32) else .command }
  | .left _ => s

/-- A loader receives a stream. -/
def Loader.run (l : Loader) (s : State) (stream : List Byte) : State := stream.foldl l.step s

@[simp] theorem Loader.run_nil (l : Loader) (s : State) : l.run s [] = s := rfl

@[simp] theorem Loader.run_cons (l : Loader) (s : State) (ch : Byte) (stream : List Byte) :
    l.run s (ch :: stream) = l.run (l.step s ch) stream := rfl

theorem Loader.run_append (l : Loader) (s : State) (xs ys : List Byte) :
    l.run s (xs ++ ys) = l.run (l.run s xs) ys :=
  List.foldl_append

end Loaders

section Encoder

inductive Cmd where
  | setBase (addr : Word)
  | readCrc
  | setLen
  | setCrc
  | writeBlock (data : List Byte)
deriving DecidableEq

/-- The bytes of a word, most significant first. -/
def bigEndian (w : Word) : List Byte :=
  [w.extractLsb' 24 8, w.extractLsb' 16 8, w.extractLsb' 8 8, w.extractLsb' 0 8]

/-- What is sent for a command. -/
def Cmd.encode : Cmd → List Byte
  | .setBase addr => 0x80#8 :: bigEndian addr
  | .readCrc => [0x81#8]
  | .setLen => [0x90#8]
  | .setCrc => [0x91#8]
  | .writeBlock data => 0xa0#8 :: data

def encode (cmds : List Cmd) : List Byte := cmds.flatMap Cmd.encode

/-- The loader as the encoder sees it. -/
structure Target where
  crc : Word := 0#32
  base : Word := 0#32
  len : Word := 0#32
  mem : Word → Byte
  replies : List Byte := []

/-- Rotate left and add. -/
def mix (crc : Word) (b : Byte) : Word := crc.rotateLeft 1 + b.setWidth 32

def checksum (data : List Byte) : Word := data.foldl mix 0#32

/-- The meaning of a command. -/
def Cmd.exec (t : Target) : Cmd → Target
  | .setBase addr => { t with base := addr }
  | .readCrc => { t with replies := t.replies ++ bigEndian t.crc }
  | .setLen => { t with len := t.base }
  | .setCrc => { t with crc := t.base }
  | .writeBlock data => { t with crc := checksum data, mem := storeBytes t.mem t.base data }

def exec (t : Target) (cmds : List Cmd) : Target := cmds.foldl Cmd.exec t

/-- A block has exactly `len` data bytes. -/
def Cmd.Fits (t : Target) : Cmd → Prop
  | .writeBlock data => data.length = t.len.toNat
  | _ => True

/-- Every command of a list fits the state it is executed in. -/
def Fits (t : Target) : List Cmd → Prop
  | [] => True
  | c :: cmds => c.Fits t ∧ Fits (c.exec t) cmds

/-- The part of the state that the encoder sees. -/
def State.view (s : State) : Target := ⟨s.crc, s.base, s.len, s.mem, s.replies⟩

@[simp] theorem exec_cons (t : Target) (c : Cmd) (cmds : List Cmd) :
    exec t (c :: cmds) = exec (c.exec t) cmds := rfl

@[simp] theorem encode_cons (c : Cmd) (cmds : List Cmd) :
    encode (c :: cmds) = c.encode ++ encode cmds := rfl

theorem encode_append (pre post : List Cmd) : encode (pre ++ post) = encode pre ++ encode post :=
  List.flatMap_append

/-- A prefix of a list that fits, and what follows it. -/
theorem fits_append {t : Target} {pre post : List Cmd} :
    Fits t (pre ++ post) ↔ Fits t pre ∧ Fits (exec t pre) post := by
  induction pre generalizing t with
  | nil =>
      simp [Fits, exec]
  | cons c pre ih =>
      simp only [List.cons_append, Fits, exec_cons, ih, and_assoc]

end Encoder

section Words

/-- The loop of the loader sends the bytes in the order of the wire format. -/
theorem pcharWord_eq_bigEndian (w : Word) : pcharWord w 4 = bigEndian w := by
  simp only [pcharWord, bigEndian, List.cons.injEq, and_true]
  refine ⟨?_, ?_, ?_, ?_⟩
  all_goals
    apply BitVec.eq_of_getLsbD_eq
    intro i hi
    grind [BitVec.getLsbD_setWidth]

/-- Whatever the base was, four received bytes replace it. -/
theorem base_of_bigEndian (b v : Word) :
    (bigEndian v).foldl (fun (b : Word) (ch : Byte) => (b <<< 8) + ch.setWidth 32) b = v := by
  apply BitVec.eq_of_toNat_eq
  have hv : v.toNat < 2 ^ 32 := v.isLt
  have hb : b.toNat < 2 ^ 32 := b.isLt
  simp only [bigEndian, List.foldl_cons, List.foldl_nil, BitVec.toNat_add, BitVec.toNat_shiftLeft,
    BitVec.toNat_setWidth, BitVec.extractLsb'_toNat, Nat.shiftLeft_eq, Nat.shiftRight_eq_div_pow]
  omega

/-- The shifts of the source are a rotation. -/
theorem addByte_eq_mix (crc : Word) (b : Byte) : addByte crc (b.setWidth 32) = mix crc b := by
  unfold addByte mix
  rw [BitVec.rotateLeft_def, BitVec.or_comm]

theorem rotateLeft_one_injective : Function.Injective (fun w : Word => w.rotateLeft 1) := by
  intro x y h
  apply BitVec.eq_of_getLsbD_eq
  intro i hi
  have hbit := congrArg (fun w : Word => w.getLsbD ((i + 1) % 32)) h
  simp only [BitVec.getLsbD_rotateLeft] at hbit
  grind

/-- A checksum that starts from different registers ends in different ones. -/
theorem checksum_from_ne {crc crc' : Word} (h : crc ≠ crc') (data : List Byte) :
    data.foldl mix crc ≠ data.foldl mix crc' := by
  induction data generalizing crc crc' with
  | nil =>
      exact h
  | cons b data ih =>
      apply ih
      intro heq
      exact h (rotateLeft_one_injective ((BitVec.add_left_inj _).mp heq))

/-- Blocks that differ in one byte have different checksums. -/
theorem checksum_ne {b b' : Byte} (h : b ≠ b') (pre post : List Byte) :
    checksum (pre ++ b :: post) ≠ checksum (pre ++ b' :: post) := by
  unfold checksum
  rw [List.foldl_append, List.foldl_append, List.foldl_cons, List.foldl_cons]
  apply checksum_from_ne
  intro heq
  have hw : b.setWidth 32 = b'.setWidth 32 := (BitVec.add_right_inj _).mp heq
  apply h
  simpa using congrArg (BitVec.setWidth 8) hw

end Words

section Framing

variable {l : Loader} {s : State}

/-- The loop over the bytes of an address. -/
theorem run_addr {i : Nat} (hmode : s.mode = .addr i) {bytes : List Byte}
    (hi : i < 4) (hlen : i + bytes.length ≤ 4) :
    l.run s bytes =
      { s with
        base := bytes.foldl (fun (b : Word) (ch : Byte) => (b <<< 8) + ch.setWidth 32) s.base
        mode := if i + bytes.length < 4 then .addr (i + bytes.length) else .command } := by
  induction bytes generalizing s i with
  | nil =>
      simp [hi, ← hmode]
  | cons ch bytes ih =>
      rw [List.length_cons] at hlen ⊢
      have hstep : l.step s ch =
          { s with
            base := (s.base <<< 8) + ch.setWidth 32
            mode := if i + 1 < 4 then .addr (i + 1) else .command } := by
        simp only [Loader.step, hmode]
      rw [Loader.run_cons, hstep]
      rcases Nat.lt_or_ge (i + 1) 4 with hi' | hi'
      · rw [ih (by simp [hi']) hi' (by omega)]
        simp [Nat.add_assoc, Nat.add_comm 1]
      · have hnil : bytes = [] := List.length_eq_zero_iff.mp (by omega)
        subst hnil
        simp

/-- The loop over the bytes of a block. -/
theorem run_block {i : Word} (hmode : s.mode = .block i) {data : List Byte}
    (hi : i < s.len) (hlen : i.toNat + data.length ≤ s.len.toNat) :
    l.run s data =
      { s with
        crc := data.foldl mix s.crc
        mem := storeBytes s.mem (s.base + i) data
        mode :=
          if i.toNat + data.length < s.len.toNat then .block (i + BitVec.ofNat 32 data.length)
          else .command } := by
  induction data generalizing s i with
  | nil =>
      have hi' : i.toNat < s.len.toNat := hi
      simp [hi', ← hmode, storeBytes]
  | cons ch data ih =>
      rw [List.length_cons] at hlen ⊢
      have hstep : l.step s ch =
          { s with
            crc := mix s.crc ch
            mem := Function.update s.mem (s.base + i) ch
            mode := if i + 1#32 < s.len then .block (i + 1#32) else .command } := by
        simp only [Loader.step, hmode, addByte_eq_mix]
      have hnext : (i + 1#32).toNat = i.toNat + 1 := by
        have := s.len.isLt
        rw [BitVec.toNat_add]
        exact Nat.mod_eq_of_lt (by simp; omega)
      rw [Loader.run_cons, hstep]
      by_cases hi' : i + 1#32 < s.len
      · rw [if_pos hi', ih (i := i + 1#32) (s := ⟨_, _, s.len, _, _, _, _⟩) rfl hi'
          (by rw [hnext]; dsimp only; omega)]
        have haddr : s.base + i + 1#32 = s.base + (i + 1#32) := BitVec.add_assoc ..
        have hcount : i + 1#32 + BitVec.ofNat 32 data.length =
            i + BitVec.ofNat 32 (data.length + 1) := by
          rw [BitVec.add_assoc, BitVec.ofNat_add, BitVec.add_comm 1#32]
        simp only [List.foldl_cons, storeBytes, hnext, haddr, hcount,
          Nat.add_right_comm i.toNat 1, ← Nat.add_assoc]
      · have hnil : data = [] := by
          have : ¬(i + 1#32).toNat < s.len.toNat := hi'
          exact List.length_eq_zero_iff.mp (by omega)
        have hlt : ¬i.toNat + 1 < s.len.toNat := by
          rwa [← hnext]
        subst hnil
        simp [hi', hlt, storeBytes]

/-- A command that fits is executed, and its bytes are taken for what they are. -/
theorem run_command (hmode : s.mode = .command) {c : Cmd} (hfit : c.Fits s.view) :
    (l.run s c.encode).mode = .command ∧ (l.run s c.encode).view = c.exec s.view ∧
      ∀ k, 0 < k → k < c.encode.length → (l.run s (c.encode.take k)).mode ≠ .command := by
  cases c with
  | setBase addr =>
      have hstep : l.step s 0x80#8 = { s with mode := .addr 0 } := by
        simp [Loader.step, hmode, Loader.command]
      simp only [Cmd.encode, Loader.run_cons, hstep]
      refine ⟨?_, ?_, ?_⟩
      · rw [run_addr rfl (by omega) (by simp [bigEndian])]
        simp [bigEndian]
      · rw [run_addr rfl (by omega) (by simp [bigEndian])]
        simp only [State.view, Cmd.exec, base_of_bigEndian]
      · intro k hk hlt
        obtain ⟨k, rfl⟩ := Nat.exists_eq_succ_of_ne_zero (Nat.pos_iff_ne_zero.mp hk)
        have hlen : k < 4 := by
          simp [bigEndian] at hlt
          omega
        have htake : ((bigEndian addr).take k).length = k := by
          simp [bigEndian]; omega
        rw [List.take_succ_cons, Loader.run_cons, hstep,
          run_addr rfl (by omega) (by omega), htake]
        simp [hlen]
  | readCrc =>
      have hstep : l.step s 0x81#8 = { s with replies := s.replies ++ pcharWord s.crc 4 } := by
        simp [Loader.step, hmode, Loader.command]
      simp only [Cmd.encode, Loader.run_cons, hstep, Loader.run_nil, pcharWord_eq_bigEndian]
      exact ⟨hmode, rfl, fun k hk hlt => by simp at hlt; omega⟩
  | setLen =>
      have hstep : l.step s 0x90#8 = { s with len := s.base } := by
        simp [Loader.step, hmode, Loader.command]
      simp only [Cmd.encode, Loader.run_cons, hstep, Loader.run_nil]
      exact ⟨hmode, rfl, fun k hk hlt => by simp at hlt; omega⟩
  | setCrc =>
      have hstep : l.step s 0x91#8 = { s with crc := s.base } := by
        simp [Loader.step, hmode, Loader.command]
      simp only [Cmd.encode, Loader.run_cons, hstep, Loader.run_nil]
      exact ⟨hmode, rfl, fun k hk hlt => by simp at hlt; omega⟩
  | writeBlock data =>
      have hlen : data.length = s.len.toNat := hfit
      have hstep : l.step s 0xa0#8 =
          { s with crc := 0#32, mode := if 0#32 < s.len then .block 0#32 else .command } := by
        simp [Loader.step, hmode, Loader.command]
      simp only [Cmd.encode, Loader.run_cons, hstep]
      by_cases hpos : 0#32 < s.len
      · rw [if_pos hpos]
        have hrun : ∀ xs : List Byte, xs.length ≤ s.len.toNat → _ := fun xs hxs =>
          @run_block l { s with crc := 0#32, mode := .block 0#32 } 0#32 rfl xs hpos (by simpa using hxs)
        refine ⟨?_, ?_, ?_⟩
        · rw [hrun data hlen.le]
          simp [hlen]
        · rw [hrun data hlen.le]
          simp [State.view, Cmd.exec, checksum]
        · intro k hk hlt
          obtain ⟨k, rfl⟩ := Nat.exists_eq_succ_of_ne_zero (Nat.pos_iff_ne_zero.mp hk)
          have hk' : k < s.len.toNat := by simpa [hlen] using hlt
          have htake : (data.take k).length = k := by
            simp; omega
          rw [List.take_succ_cons, Loader.run_cons, hstep, if_pos hpos,
            hrun (data.take k) (by omega), htake]
          simp [hk']
      · have hzero : s.len.toNat = 0 := by
          have : ¬0 < s.len.toNat := hpos
          omega
        have hnil : data = [] := List.length_eq_zero_iff.mp (by omega)
        subst hnil
        rw [if_neg hpos]
        exact ⟨rfl, rfl, fun k hk hlt => by simp at hlt; omega⟩

/-- Commands that fit are executed one after the other. -/
theorem run_commands (hmode : s.mode = .command) {cmds : List Cmd} (hfit : Fits s.view cmds) :
    (l.run s (encode cmds)).mode = .command ∧
      (l.run s (encode cmds)).view = exec s.view cmds := by
  induction cmds generalizing s with
  | nil =>
      exact ⟨hmode, rfl⟩
  | cons c cmds ih =>
      obtain ⟨hc, hrest⟩ := hfit
      obtain ⟨hmode', hview, -⟩ := run_command (l := l) hmode hc
      rw [encode_cons, Loader.run_append, exec_cons, ← hview]
      exact ih hmode' (hview ▸ hrest)

end Framing

section Result

/-- Both loaders decode every stream of commands that an encoder emits.  They are in step with
it: a byte is taken for a command exactly when it begins one.  What they did after each command
is what the commands mean, the jump goes to the last base, and a changed byte of a block shows
in the checksum. -/
theorem loaders_decode (l : Loader) (mem : Word → Byte) (cmds : List Cmd)
    (hfit : Fits { mem := mem } cmds) :
    (∀ pre c post, cmds = pre ++ c :: post → ∀ k, k ≤ c.encode.length →
      ((l.run { mem := mem } (encode pre ++ c.encode.take k)).mode = .command ↔
        k = 0 ∨ k = c.encode.length)) ∧
    (∀ pre post, cmds = pre ++ post →
      (l.run { mem := mem } (encode pre)).view = exec { mem := mem } pre) ∧
    (l.run { mem := mem } (encode cmds ++ [0xb1#8])).view = exec { mem := mem } cmds ∧
    (l.run { mem := mem } (encode cmds ++ [0xb1#8])).mode =
      .left (exec { mem := mem } cmds).base ∧
    ∀ (s s' : State) (pre post : List Byte) (b b' : Byte),
      s.mode = .command → s'.mode = .command →
      (pre ++ b :: post).length = s.len.toNat → (pre ++ b' :: post).length = s'.len.toNat →
      b ≠ b' →
      (l.run s (Cmd.writeBlock (pre ++ b :: post)).encode).crc ≠
        (l.run s' (Cmd.writeBlock (pre ++ b' :: post)).encode).crc := by
  have hparts : ∀ pre post, cmds = pre ++ post →
      (l.run { mem := mem } (encode pre)).mode = .command ∧
        (l.run { mem := mem } (encode pre)).view = exec { mem := mem } pre ∧
        Fits (exec { mem := mem } pre) post := by
    intro pre post hsplit
    rw [hsplit, fits_append] at hfit
    obtain ⟨hmode, hview⟩ := run_commands (l := l) (s := { mem := mem }) rfl hfit.1
    exact ⟨hmode, hview, hfit.2⟩
  have hjump : l.run { mem := mem } (encode cmds ++ [0xb1#8]) =
      { l.run { mem := mem } (encode cmds) with
        mode := .left (l.run { mem := mem } (encode cmds)).base } := by
    obtain ⟨hmode, -, -⟩ := hparts cmds [] (by simp)
    rw [Loader.run_append]
    simp [Loader.step, hmode, Loader.command]
  refine ⟨?_, fun pre post hsplit => (hparts pre post hsplit).2.1, ?_, ?_, ?_⟩
  · intro pre c post hsplit k hk
    obtain ⟨hmode, hview, hfits⟩ := hparts pre (c :: post) hsplit
    obtain ⟨hend, -, hinner⟩ := run_command (l := l) hmode (hview ▸ hfits.1)
    rw [Loader.run_append]
    constructor
    · intro hcommand
      by_contra hne
      exact hinner k (by omega) (by omega) hcommand
    · rintro (rfl | rfl)
      · simpa using hmode
      · simpa using hend
  · rw [hjump]
    exact (hparts cmds [] (by simp)).2.1
  · rw [hjump]
    exact congrArg (fun t => Mode.left (Target.base t)) (hparts cmds [] (by simp)).2.1
  · intro s s' pre post b b' hs hs' hlen hlen' hne
    have hcrc :=
      congrArg Target.crc (run_command (l := l) (c := .writeBlock (pre ++ b :: post)) hs hlen).2.1
    have hcrc' :=
      congrArg Target.crc (run_command (l := l) (c := .writeBlock (pre ++ b' :: post)) hs' hlen').2.1
    exact fun heq => checksum_ne hne pre post (hcrc.symm.trans (heq.trans hcrc'))

/-- A block of two bytes at `0x400`, its checksum read, and the jump. -/
theorem loaders_decode_twoBytes :
    (Loader.binboot.run { mem := fun _ => 0#8 }
      (encode [.setBase 2#32, .setLen, .setBase 0x400#32, .writeBlock [0xff#8, 0x80#8], .readCrc] ++
        [0xb1#8])).mode = .left 0x400#32 :=
  (loaders_decode .binboot (fun _ => 0#8)
    [.setBase 2#32, .setLen, .setBase 0x400#32, .writeBlock [0xff#8, 0x80#8], .readCrc]
    ⟨trivial, trivial, trivial, rfl, trivial, trivial⟩).2.2.2.1

end Result

end Binboot
end F32c

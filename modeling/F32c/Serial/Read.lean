import F32c.Serial.Write

/-!
# Reading from the serial port

What becomes of the bytes that come.  They pass `tty_iproc` and a ring of 32 places, and are
reported by `sio_read`.  All that is said is said of the bytes below 128: for the others `LB`
makes a negative number, which the driver takes for the answer of `tty_iproc` that a character
is to be dropped.
-/

namespace F32c
namespace Serial

section Ring

variable {sio : Sio}

/-- The number of bytes in the ring. -/
def Sio.fill (sio : Sio) : Nat := (sio.rxbufHead - sio.rxbufTail).val

/-- The bytes in the ring. -/
def Sio.queue (sio : Sio) : List Byte :=
  Ring.contents rxbufSize sio.rxbuf sio.rxbufTail sio.fill

@[simp] theorem queue_overrun (n : BitVec 4) : (sio.overrun n).queue = sio.queue := rfl

theorem length_queue : sio.queue.length = sio.fill := Ring.length_contents _ _ _ _

/-- The numbers behind the indices. -/
theorem fill_eq (sio : Sio) : sio.rxbufTail.val < 32 ∧ sio.rxbufHead.val < 32 ∧
    sio.fill = (32 - sio.rxbufTail.val + sio.rxbufHead.val) % 32 := by
  refine ⟨sio.rxbufTail.isLt, sio.rxbufHead.isLt, ?_⟩
  rw [Sio.fill, Fin.sub_def]

theorem val_next (i : Fin rxbufSize) : (i + 1).val = (i.val + 1) % 32 := Fin.val_add i 1

theorem head_eq : (sio.rxbufTail.val + sio.fill) % rxbufSize = sio.rxbufHead.val := by
  obtain ⟨htail, hhead, hfill⟩ := fill_eq sio
  rw [hfill]
  change (_ + _ % 32) % 32 = _
  omega

/-- A byte is put behind the others, or it is lost where the ring is full. -/
theorem queue_put (c : CInt) :
    ((sio.put c).queue = sio.queue ++ [c.setWidth 8] ∧
        (sio.put c).swRxOverruns = sio.swRxOverruns) ∨
      (sio.put c).queue = sio.queue ∧ (sio.put c).swRxOverruns = sio.swRxOverruns + 1 := by
  rw [Sio.put]
  by_cases hfull : sio.rxbufHead + 1 = sio.rxbufTail
  · rw [if_pos hfull]
    exact .inr ⟨rfl, rfl⟩
  · rw [if_neg hfull]
    refine .inl ⟨?_, rfl⟩
    obtain ⟨sio', hsio'⟩ : ∃ sio' : Sio, { sio with
        rxbuf := Function.update sio.rxbuf sio.rxbufHead (c.setWidth 8)
        rxbufHead := sio.rxbufHead + 1 } = sio' := ⟨_, rfl⟩
    have htail' : sio'.rxbufTail = sio.rxbufTail := by rw [← hsio']
    have hfill : sio.fill < 32 ∧ sio'.fill = sio.fill + 1 := by
      have hhead' : sio'.rxbufHead.val = (sio.rxbufHead.val + 1) % 32 := by
        rw [← hsio']
        exact val_next _
      rw [← Fin.val_inj, val_next] at hfull
      obtain ⟨htail, hhead, hfill⟩ := fill_eq sio
      rw [(fill_eq sio').2.2, htail', hhead', hfill]
      omega
    have hpush := Ring.contents_push sio.rxbuf sio.rxbufTail.val hfill.1 (c.setWidth 8)
    rw [hsio', Sio.queue, Sio.queue, ← hpush, hfill.2, htail', ← hsio']
    dsimp only
    rw [head_eq]

theorem empty_iff : sio.empty = true ↔ sio.queue = [] := by
  rw [← List.length_eq_zero_iff, length_queue, Sio.fill, Sio.empty, beq_iff_eq,
    Fin.val_eq_zero_iff, sub_eq_zero]

/-- The oldest byte is taken. -/
theorem queue_tail (hempty : sio.queue ≠ []) :
    sio.queue =
      sio.rxbuf sio.rxbufTail :: ({ sio with rxbufTail := sio.rxbufTail + 1 } : Sio).queue := by
  have hpos : 0 < sio.fill := by
    rw [← length_queue]
    exact List.length_pos_of_ne_nil hempty
  obtain ⟨sio', hsio'⟩ : ∃ sio' : Sio, { sio with rxbufTail := sio.rxbufTail + 1 } = sio' :=
    ⟨_, rfl⟩
  have htail' : sio'.rxbufTail.val = (sio.rxbufTail.val + 1) % 32 := by
    rw [← hsio']
    exact val_next _
  have hhead' : sio'.rxbufHead = sio.rxbufHead := by rw [← hsio']
  have hbuf' : sio'.rxbuf = sio.rxbuf := by rw [← hsio']
  have hfill : sio.fill = sio'.fill + 1 := by
    obtain ⟨htail, hhead, hfill⟩ := fill_eq sio
    rw [hfill] at hpos
    rw [(fill_eq sio').2.2, hfill, htail', hhead']
    omega
  rw [hsio', Sio.queue, Sio.queue, hfill, Ring.contents_succ, htail', hbuf',
    Nat.mod_eq_of_lt sio.rxbufTail.isLt]

/-- The ring is emptied as far as bytes are asked for. -/
theorem queue_drain (n : Nat) : ∀ sio : Sio, sio.queue ≠ [] →
    (drain n sio).1 ++ (drain n sio).2.queue = sio.queue ∧
      (drain n sio).2.swRxOverruns = sio.swRxOverruns ∧ (drain n sio).1.length ≤ n := by
  induction n with
  | zero => exact fun sio _ => ⟨rfl, rfl, Nat.le_refl 0⟩
  | succ n ih =>
      intro sio hempty
      rw [drain, queue_tail hempty]
      generalize hsio' : ({ sio with rxbufTail := sio.rxbufTail + 1 } : Sio) = sio'
      have hover : sio'.swRxOverruns = sio.swRxOverruns := by rw [← hsio']
      dsimp only
      split
      · exact ⟨rfl, hover, by simp⟩
      · rename_i hmore
        obtain ⟨hqueue, hover', hlength⟩ := ih sio' fun h => hmore (empty_iff.2 h)
        refine ⟨?_, hover'.trans hover, by simpa using hlength⟩
        rw [List.cons_append, hqueue]

end Ring

section Input

/-- The documented processing of a character. -/
def inputOne (tty : Tty) (b : Byte) : Option Byte × Tty :=
  let next := { tty with igotcr := false }
  if b = 0x3 ∧ tty.termios.isig = true then (none, next)
  else if b = 0x13 ∧ tty.termios.ixon = true then (none, { next with ostop := true })
  else if b = 0x11 ∧ tty.termios.ixon = true then (none, { next with ostop := false })
  else if b = 0xd ∧ tty.termios.igncr = true then (none, next)
  else if b = 0xa ∧ tty.igotcr = true then (none, next)
  else if b = 0xa ∧ tty.termios.inlcr = true then (some 0xd, next)
  else if b = 0xd ∧ tty.termios.icrnl = true then (some 0xa, { next with igotcr := true })
  else (some b, next)

def inputStep (tty : Option Tty) (b : Byte) : Option Byte × Option Tty :=
  match tty with
  | none => (some b, none)
  | some tty => ((inputOne tty b).1, some (inputOne tty b).2)

/-- What is to be read of the bytes that come, and the settings with what has been seen. -/
def input : Option Tty → List Byte → List Byte × Option Tty
  | tty, [] => ([], tty)
  | tty, b :: bs =>
    ((inputStep tty b).1.toList ++ (input (inputStep tty b).2 bs).1,
      (input (inputStep tty b).2 bs).2)

theorem input_append (tty : Option Tty) (bs bs' : List Byte) :
    input tty (bs ++ bs') =
      ((input tty bs).1 ++ (input (input tty bs).2 bs').1, (input (input tty bs).2 bs').2) := by
  induction bs generalizing tty with
  | nil => rfl
  | cons b bs ih => simp [input, ih]

variable {b : Byte}

theorem signExtend_eq (hb : b.toNat < 128) : b.signExtend 32 = b.setWidth 32 := by
  apply BitVec.signExtend_eq_setWidth_of_msb_false
  rw [BitVec.msb_eq_false_iff_two_mul_lt]
  omega

theorem low_signExtend (b : Byte) : (b.signExtend 32).setWidth 8 = b := by
  apply BitVec.eq_of_getLsbD_eq
  intro i hi
  rw [BitVec.getLsbD_setWidth, BitVec.getLsbD_signExtend]
  simp [hi, show i < 32 by omega]

theorem extended_eq_iff (hb : b.toNat < 128) (v : Byte) :
    b.signExtend 32 = v.setWidth 32 ↔ b = v := by
  rw [signExtend_eq hb, ← BitVec.toNat_inj, ← BitVec.toNat_inj, BitVec.toNat_setWidth,
    BitVec.toNat_setWidth]
  have hv := v.isLt
  omega

theorem extended_toInt (hb : b.toNat < 128) : (b.signExtend 32).toInt = b.toNat := by
  rw [signExtend_eq hb, BitVec.toInt_setWidth, Int.bmod_eq_of_le (by omega) (by omega)]

/-- A character below 128 is processed as documented, and the answer is negative where it is to
be dropped. -/
theorem ttyIproc_spec (hb : b.toNat < 128) (tty : Tty) (task : Task) :
    (ttyIproc tty task (b.signExtend 32)).2.1 = (inputOne tty b).2 ∧
      match (inputOne tty b).1 with
      | none => (ttyIproc tty task (b.signExtend 32)).1.slt 0 = true
      | some b' => (ttyIproc tty task (b.signExtend 32)).1.slt 0 = false ∧
          (ttyIproc tty task (b.signExtend 32)).1.setWidth 8 = b' := by
  have h3 : b.signExtend 32 = 0x3 ↔ b = 0x3 := extended_eq_iff hb 0x3
  have ha : b.signExtend 32 = 0xa ↔ b = 0xa := extended_eq_iff hb 0xa
  have hd : b.signExtend 32 = 0xd ↔ b = 0xd := extended_eq_iff hb 0xd
  have h13 : b.signExtend 32 = 0x13 ↔ b = 0x13 := extended_eq_iff hb 0x13
  have h11 : b.signExtend 32 = 0x11 ↔ b = 0x11 := extended_eq_iff hb 0x11
  have hpos : (b.signExtend 32).slt 0 = false := by
    rw [BitVec.slt_eq_decide, extended_toInt hb]
    simp
  rw [ttyIproc, inputOne]
  simp only [h3, ha, hd, h13, h11]
  by_cases e3 : b = 0x3
  · subst e3
    cases tty.termios.isig <;> simp
  by_cases ea : b = 0xa
  · subst ea
    cases tty.igotcr <;> cases tty.termios.inlcr <;> simp
  by_cases ed : b = 0xd
  · subst ed
    cases tty.termios.igncr <;> cases tty.termios.icrnl <;> simp
  by_cases e13 : b = 0x13
  · subst e13
    cases tty.termios.ixon <;> simp
  by_cases e11 : b = 0x11
  · subst e11
    cases tty.termios.ixon <;> simp
  simp only [e3, ea, ed, e13, e11, if_false, false_and]
  exact ⟨trivial, hpos, low_signExtend b⟩

/-- The characters that are not given to `tty_iproc` are not to be processed. -/
theorem inputOne_of_printable (hb : b.toNat < 128) {tty : Tty}
    (h : ttyDoIproc tty (b.signExtend 32) = false) : inputOne tty b = (some b, tty) := by
  rw [ttyDoIproc, Bool.or_eq_false_iff, Bool.or_eq_false_iff, BitVec.slt_eq_decide,
    extended_toInt hb] at h
  obtain ⟨⟨hlow, -⟩, hcr⟩ := h
  have hge : 32 ≤ b.toNat := by
    have hlt := of_decide_eq_false hlow
    change ¬(b.toNat : Int) < 32 at hlt
    omega
  have hne (v : Byte) (hv : v.toNat < 32) : b ≠ v := by
    rintro rfl
    omega
  rw [inputOne, if_neg fun h => hne 0x3 (by decide) h.1, if_neg fun h => hne 0x13 (by decide) h.1,
    if_neg fun h => hne 0x11 (by decide) h.1, if_neg fun h => hne 0xd (by decide) h.1,
    if_neg fun h => hne 0xa (by decide) h.1, if_neg fun h => hne 0xa (by decide) h.1,
    if_neg fun h => hne 0xd (by decide) h.1]
  rw [← hcr]

end Input

section Keep

variable {file file' file'' : File} {due due' : List Byte × Option Tty} {out out' : List Byte}

/-- From one state to another, with what was due to be read of the bytes that have come, and what
has been reported: what was in the ring and what was due is reported or in the ring, in order,
but for as many bytes as have been counted. -/
structure Keeps (file : File) (due : List Byte × Option Tty) (out : List Byte) (file' : File) :
    Prop where
  tty : file'.tty = due.2
  order : (out ++ file'.sio.queue).Sublist (file.sio.queue ++ due.1)
  counted : ∃ lost, file'.sio.swRxOverruns = file.sio.swRxOverruns + BitVec.ofNat 16 lost ∧
    (file.sio.queue ++ due.1).length = (out ++ file'.sio.queue).length + lost

/-- Nothing has come, and the oldest bytes are reported. -/
theorem Keeps.of_queue (htty : file'.tty = due.2) (hdue : due.1 = [])
    (hqueue : out ++ file'.sio.queue = file.sio.queue)
    (hover : file'.sio.swRxOverruns = file.sio.swRxOverruns) : Keeps file due out file' := by
  refine ⟨htty, ?_, 0, ?_, ?_⟩
  · rw [hqueue, hdue, List.append_nil]
  · rw [hover]
    simp
  · rw [hqueue, hdue, List.append_nil]
    rfl

theorem Keeps.trans (h : Keeps file due out file') (h' : Keeps file' due' out' file'') :
    Keeps file (due.1 ++ due'.1, due'.2) (out ++ out') file'' := by
  obtain ⟨-, horder, lost, hover, hcount⟩ := h
  obtain ⟨htty', horder', lost', hover', hcount'⟩ := h'
  refine ⟨htty', ?_, lost + lost', ?_, ?_⟩
  · rw [← List.append_assoc, List.append_assoc out]
    refine (List.Sublist.append_left horder' out).trans ?_
    rw [← List.append_assoc]
    exact List.Sublist.append_right horder _
  · rw [hover', hover, BitVec.ofNat_add, BitVec.add_assoc]
  · simp only [List.length_append] at hcount hcount' ⊢
    omega

/-- A character for the ring. -/
theorem Keeps.put {sio : Sio} {b : Byte} {c : CInt} {tty : Option Tty} {task : Task}
    (hqueue : sio.queue = file.sio.queue) (hover : sio.swRxOverruns = file.sio.swRxOverruns)
    (hc : c.setWidth 8 = b) : Keeps file ([b], tty) [] ⟨tty, task, sio.put c⟩ := by
  refine ⟨rfl, ?_, ?_⟩
  · rw [List.nil_append]
    rcases @queue_put sio c with ⟨hput, -⟩ | ⟨hput, -⟩
    · rw [hput, hqueue, hc]
    · rw [hput, hqueue]
      exact List.sublist_append_left _ _
  · rw [List.nil_append]
    rcases @queue_put sio c with ⟨hput, hsame⟩ | ⟨hput, hmore⟩
    · refine ⟨0, ?_, ?_⟩
      · rw [hsame, hover]
        simp
      · rw [hput, hqueue, hc]
        rfl
    · refine ⟨1, ?_, ?_⟩
      · rw [hmore, hover]
        rfl
      · rw [hput, hqueue, List.length_append]
        rfl

/-- The byte is below 128, or no settings are in force. -/
def Plain (tty : Option Tty) (b : Byte) : Prop := tty = none ∨ b.toNat < 128

theorem Plain.congr {tty tty' : Option Tty} {b : Byte} (h : Plain tty b)
    (hset : settings tty' = settings tty) : Plain tty' b := by
  rcases h with rfl | h
  · left
    cases tty' with
    | none => rfl
    | some t => cases hset
  · exact .inr h

theorem receive_keeps {rx : Rx} (h : Plain file.tty rx.data) :
    Keeps file (input file.tty [rx.data]) [] (receive file rx) := by
  rw [receive]
  cases htty : file.tty with
  | none => exact Keeps.put (queue_overrun rx.overruns) rfl (low_signExtend rx.data)
  | some tty =>
      have hb : rx.data.toNat < 128 := by
        rcases h with h | h
        · rw [htty] at h
          cases h
        · exact h
      have hinput : input (some tty) [rx.data] =
          ((inputOne tty rx.data).1.toList, some (inputOne tty rx.data).2) := by
        simp [input, inputStep]
      dsimp only
      rw [hinput]
      cases hproc : ttyDoIproc tty (rx.data.signExtend 32) with
      | false =>
          rw [if_neg (by decide), inputOne_of_printable hb hproc]
          exact Keeps.put (queue_overrun rx.overruns) rfl (low_signExtend rx.data)
      | true =>
          obtain ⟨htty', hanswer⟩ := ttyIproc_spec hb tty file.task
          rw [if_pos rfl, htty']
          cases hone : (inputOne tty rx.data).1 with
          | none =>
              rw [hone] at hanswer
              rw [if_pos hanswer]
              exact Keeps.of_queue rfl rfl rfl rfl
          | some b =>
              rw [hone] at hanswer
              rw [hanswer.1, if_neg (by decide)]
              exact Keeps.put (queue_overrun rx.overruns) rfl hanswer.2

/-- The bytes that come while the driver polls. -/
def Poll.bytes (p : Poll) : List Byte := p.rx.map Rx.data

theorem receives_keeps (rxs : List Rx) : ∀ file, (∀ rx ∈ rxs, Plain file.tty rx.data) →
    Keeps file (input file.tty (rxs.map Rx.data)) [] (rxs.foldl receive file) := by
  induction rxs with
  | nil => exact fun file _ => Keeps.of_queue rfl rfl rfl rfl
  | cons rx rxs ih =>
      intro file h
      have hone := receive_keeps (h rx List.mem_cons_self)
      have hrest := ih (receive file rx) fun rx' hrx' =>
        (h rx' (List.mem_cons_of_mem _ hrx')).congr (receive_settings file rx)
      rw [hone.tty] at hrest
      have happend := input_append file.tty [rx.data] (rxs.map Rx.data)
      rw [List.singleton_append] at happend
      rw [List.map_cons, List.foldl_cons, happend]
      exact hone.trans hrest

theorem probe_keeps {p : Poll} (h : ∀ b ∈ p.bytes, Plain file.tty b) :
    Keeps file (input file.tty p.bytes) [] (sioProbeRx file p) := by
  obtain ⟨htty, horder, hcount⟩ := receives_keeps p.rx file fun rx hrx =>
    h rx.data (List.mem_map_of_mem hrx)
  exact ⟨htty, horder, hcount⟩

end Keep

section Calls

variable {file : File} {nonblock : Bool} {nbytes : Nat} {polls : List Poll}

/-- The bytes that come during a call. -/
def bytesOf (polls : List Poll) : List Byte := polls.flatMap Poll.bytes

theorem bytesOf_append_singleton (polls : List Poll) (p : Poll) :
    bytesOf (polls ++ [p]) = bytesOf polls ++ p.bytes := by
  rw [bytesOf, bytesOf, List.flatMap_append, List.flatMap_singleton]

/-- A poll after others. -/
theorem Keeps.probe {out : List Byte} {file' : File} {p : Poll}
    (h : Keeps file (input file.tty (bytesOf polls)) out file')
    (hset : settings file'.tty = settings file.tty)
    (hplain : ∀ b ∈ bytesOf (polls ++ [p]), Plain file.tty b) :
    Keeps file (input file.tty (bytesOf (polls ++ [p]))) out (sioProbeRx file' p) := by
  have hprobe : Keeps file' (input file'.tty p.bytes) [] (sioProbeRx file' p) := by
    refine probe_keeps fun b hb => (hplain b ?_).congr hset
    rw [bytesOf_append_singleton]
    exact List.mem_append_right _ hb
  rw [h.tty] at hprobe
  have happend := input_append file.tty (bytesOf polls) p.bytes
  rw [bytesOf_append_singleton, happend, ← List.append_nil out]
  exact h.trans hprobe

/-- What is not looked at here may change. -/
theorem Keeps.congr {due : List Byte × Option Tty} {out : List Byte} {file' g : File}
    (h : Keeps file due out file') (htty : g.tty = file'.tty) (hsio : g.sio = file'.sio) :
    Keeps file due out g := by
  obtain ⟨htty', horder, hcount⟩ := h
  rw [← hsio] at horder hcount
  exact ⟨htty.trans htty', horder, hcount⟩

theorem plain_of_append {p : Poll}
    (h : ∀ b ∈ bytesOf (polls ++ [p]), Plain file.tty b) : ∀ b ∈ bytesOf polls, Plain file.tty b := by
  intro b hb
  refine h b ?_
  rw [bytesOf_append_singleton]
  exact List.mem_append_left _ hb

/-- How `sio_read` ends. -/
structure ReadEnded (file : File) (polls : List Poll) (r : ReadResult) : Prop where
  keeps : (∀ b ∈ bytesOf polls, Plain file.tty b) →
    Keeps file (input file.tty (bytesOf polls)) r.cbuf r.file
  ret : r.ret = r.cbuf.length ∧ r.errno = none ∨
    r.ret = -1 ∧ (r.errno = some .eagain ∧ r.cbuf = [] ∨ r.errno = some .eintr)

theorem sioRead_ended {r : ReadResult} (h : sioRead nonblock nbytes polls file = some r) :
    ReadEnded file polls r := by
  rw [sioRead] at h
  refine Loop.exchange_rule
    (fun (s : ReadState) ps => settings s.file.tty = settings file.tty ∧
      ((∀ b ∈ bytesOf ps, Plain file.tty b) →
        Keeps file (input file.tty (bytesOf ps)) s.cbuf s.file))
    (fun r ps => ReadEnded file ps r) ?_ ?_ ?_ polls ⟨file, []⟩ [] r
    ⟨rfl, fun _ => Keeps.of_queue rfl rfl rfl rfl⟩ h
  · rintro s ps r ⟨-, hs⟩ hr
    rw [readRet] at hr
    split at hr
    · cases hr
    · cases hr
      exact ⟨hs, .inl ⟨rfl, rfl⟩⟩
  · rintro s ps p s' ⟨hset, hs⟩ - hstep
    have hset' := (sioProbeRx_settings s.file p).trans hset
    have hprobe (hplain : ∀ b ∈ bytesOf (ps ++ [p]), Plain file.tty b) :=
      (hs (plain_of_append hplain)).probe hset hplain
    rw [readStep] at hstep
    dsimp only at hstep
    split at hstep
    · split at hstep
      · split at hstep
        · cases hstep
        · cases hstep
      · split at hstep
        · cases hstep
        · cases hstep
          exact ⟨hset', hprobe⟩
    · next hempty =>
        cases hstep
        refine ⟨hset', fun hplain => ?_⟩
        obtain ⟨hqueue, hover, -⟩ := queue_drain (nbytes - s.cbuf.length) (sioProbeRx s.file p).sio
          fun h => hempty (empty_iff.2 h)
        have hdrain : Keeps (sioProbeRx s.file p) ([], (input file.tty (bytesOf (ps ++ [p]))).2)
            (drain (nbytes - s.cbuf.length) (sioProbeRx s.file p).sio).1
            { sioProbeRx s.file p with
              sio := (drain (nbytes - s.cbuf.length) (sioProbeRx s.file p).sio).2 } :=
          Keeps.of_queue (hprobe hplain).tty rfl hqueue hover
        have hall := (hprobe hplain).trans hdrain
        rw [List.append_nil] at hall
        exact hall
  · rintro s ps p r ⟨hset, hs⟩ - hstep
    have hprobe (hplain : ∀ b ∈ bytesOf (ps ++ [p]), Plain file.tty b) :=
      (hs (plain_of_append hplain)).probe hset hplain
    rw [readStep] at hstep
    dsimp only at hstep
    split at hstep
    · split at hstep
      · split at hstep
        · cases hstep
          exact ⟨hprobe, .inl ⟨rfl, rfl⟩⟩
        · next hi =>
            cases hstep
            exact ⟨hprobe, .inr ⟨rfl, .inl ⟨rfl, List.length_eq_zero_iff.1 (not_ne_iff.1 hi)⟩⟩⟩
      · split at hstep
        · cases hstep
          exact ⟨fun hplain => (hprobe hplain).congr rfl rfl, .inr ⟨rfl, .inr rfl⟩⟩
        · cases hstep
    · cases hstep

/-- What `sio_write` takes from the port on its way. -/
theorem sioWrite_keeps {buf : List Byte} {r : WriteResult}
    (h : sioWrite nonblock buf polls file = some r)
    (hplain : ∀ b ∈ bytesOf polls, Plain file.tty b) :
    Keeps file (input file.tty (bytesOf polls)) [] r.last.file := by
  rw [sioWrite] at h
  refine Loop.exchange_rule
    (fun (s : WriteState) ps => settings s.file.tty = settings file.tty ∧
      ((∀ b ∈ bytesOf ps, Plain file.tty b) →
        Keeps file (input file.tty (bytesOf ps)) [] s.file))
    (fun (r : WriteResult) ps => (∀ b ∈ bytesOf ps, Plain file.tty b) →
      Keeps file (input file.tty (bytesOf ps)) [] r.last.file) ?_ ?_ ?_ polls ⟨file, 0, [], []⟩ [] r
    ⟨rfl, fun _ => Keeps.of_queue rfl rfl rfl rfl⟩ h hplain
  · rintro s ps r ⟨-, hs⟩ hr
    rw [writeRet] at hr
    split at hr
    · cases hr
    · cases hr
      exact hs
  · rintro s ps p s' ⟨hset, hs⟩ - hstep
    have hset' := (sioProbeRx_settings s.file p).trans hset
    have hprobe (hplain : ∀ b ∈ bytesOf (ps ++ [p]), Plain file.tty b) :=
      (hs (plain_of_append hplain)).probe hset hplain
    suffices hfile : s'.file = sioProbeRx s.file p by
      rw [hfile]
      exact ⟨hset', hprobe⟩
    rw [writeStep] at hstep
    dsimp only at hstep
    repeat' split at hstep
    all_goals cases hstep
    all_goals rfl
  · rintro s ps p r ⟨hset, hs⟩ - hstep hplain
    have hprobe := (hs (plain_of_append hplain)).probe hset hplain
    rw [writeStep] at hstep
    dsimp only at hstep
    repeat' split at hstep
    all_goals cases hstep
    all_goals exact hprobe.congr rfl rfl

end Calls

section Run

/-- A call on the port, with what `sio_probe_rx` finds in it, or a change of the settings. -/
inductive Call where
  | read (nonblock : Bool) (nbytes : Nat) (polls : List Poll)
  | write (nonblock : Bool) (buf : List Byte) (polls : List Poll)
  | tcsetattr (termios : Termios)

/-- The bytes that come during a call. -/
def Call.bytes : Call → List Byte
  | .read _ _ polls => bytesOf polls
  | .write _ _ polls => bytesOf polls
  | .tcsetattr _ => []

/-- The bytes that `sio_read` says it has read. -/
def ReadResult.reported (r : ReadResult) : List Byte :=
  if 0 ≤ r.ret then r.cbuf.take r.ret.toNat else []

/-- `tcsetattr` -/
def File.set (file : File) (termios : Termios) : File :=
  { file with tty := file.tty.map fun tty => { tty with termios := termios } }

/-- What a call reports, and the state it leaves. -/
def Call.run (file : File) : Call → Option (List Byte × File)
  | .read nonblock nbytes polls =>
    (sioRead nonblock nbytes polls file).map fun r => (r.reported, r.file)
  | .write nonblock buf polls => (sioWrite nonblock buf polls file).map fun r => ([], r.last.file)
  | .tcsetattr termios => some ([], file.set termios)

/-- What is due to be read of the bytes that come in some calls. -/
def due : Option Tty → List Call → List Byte × Option Tty
  | tty, [] => ([], tty)
  | tty, .tcsetattr termios :: calls =>
    due (tty.map fun tty => { tty with termios := termios }) calls
  | tty, call :: calls =>
    ((input tty call.bytes).1 ++ (due (input tty call.bytes).2 calls).1,
      (due (input tty call.bytes).2 calls).2)

/-- What the calls report, and the state they leave. -/
def runCalls : List Call → File → Option (List Byte × File)
  | [], file => some ([], file)
  | call :: calls, file =>
    (call.run file).bind fun (out, file') =>
      (runCalls calls file').map fun (out', file'') => (out ++ out', file'')

/-- The bytes that come are below 128 where settings are in force, and a read is not broken off by
a signal when it has taken bytes from the ring. -/
def Call.Whole (file : File) : Call → Prop
  | .read nonblock nbytes polls => (∀ b ∈ bytesOf polls, Plain file.tty b) ∧
      ∀ r, sioRead nonblock nbytes polls file = some r → r.errno = some .eintr → r.cbuf = []
  | .write _ _ polls => ∀ b ∈ bytesOf polls, Plain file.tty b
  | .tcsetattr _ => True

/-- This holds of all calls of a run. -/
def WholeRun : List Call → File → Prop
  | [], _ => True
  | call :: calls, file =>
    call.Whole file ∧ ∀ out file', call.run file = some (out, file') → WholeRun calls file'

/-- A read that is not broken off reports what it has taken. -/
theorem ReadEnded.reported_eq {file : File} {polls : List Poll} {r : ReadResult}
    (h : ReadEnded file polls r) (hwhole : r.errno = some .eintr → r.cbuf = []) :
    r.reported = r.cbuf := by
  rw [ReadResult.reported]
  rcases h.ret with ⟨hret, -⟩ | ⟨hret, hbuf⟩
  · rw [hret, if_pos (by omega), Int.toNat_natCast, List.take_length]
  · rw [hret, if_neg (by decide)]
    rcases hbuf with ⟨-, hnil⟩ | hintr
    · exact hnil.symm
    · exact (hwhole hintr).symm

theorem runCalls_keeps (calls : List Call) : ∀ file out file', WholeRun calls file →
    runCalls calls file = some (out, file') → Keeps file (due file.tty calls) out file' := by
  induction calls with
  | nil =>
      rintro file out file' - h
      cases h
      exact Keeps.of_queue rfl rfl rfl rfl
  | cons call calls ih =>
      rintro file out file'' ⟨hwhole, hrest⟩ h
      obtain ⟨⟨out₁, file'⟩, hcall, h⟩ := Option.bind_eq_some_iff.1 h
      obtain ⟨⟨out₂, file₂⟩, hcalls, heq⟩ := Option.map_eq_some_iff.1 h
      cases heq
      have htail := ih file' out₂ file'' (hrest out₁ file' hcall) hcalls
      cases call with
      | tcsetattr termios =>
          cases hcall
          exact ⟨htail.tty, htail.order, htail.counted⟩
      | read nonblock nbytes polls =>
          obtain ⟨r, hr, heq⟩ := Option.map_eq_some_iff.1 hcall
          cases heq
          have hended := sioRead_ended hr
          have hkeeps := hended.keeps hwhole.1
          rw [← hended.reported_eq (hwhole.2 r hr)] at hkeeps
          rw [hkeeps.tty] at htail
          exact hkeeps.trans htail
      | write nonblock buf polls =>
          obtain ⟨r, hr, heq⟩ := Option.map_eq_some_iff.1 hcall
          cases heq
          have hkeeps := sioWrite_keeps hr hwhole
          rw [hkeeps.tty] at htail
          exact hkeeps.trans htail

/-- What has been reported and what is in the ring is what was due, in order, but for the bytes
that are counted. -/
structure InOrder (tty : Option Tty) (calls : List Call) (out : List Byte) (file : File) :
    Prop where
  order : (out ++ file.sio.queue).Sublist (due tty calls).1
  counted : (due tty calls).1.length =
    (out ++ file.sio.queue).length + file.sio.swRxOverruns.toNat

/-- `struct sio_state` at the beginning. -/
structure Sio.Fresh (sio : Sio) : Prop where
  empty : sio.rxbufHead = sio.rxbufTail
  counted : sio.swRxOverruns = 0

/-- A read that finds a carriage return and a letter. -/
def readTwo : List Call := [.read true 2 [⟨[⟨0, 0xd⟩, ⟨0, 0x61⟩], 0, false, false⟩]]

theorem readTwo_whole : WholeRun readTwo sio0 := by
  refine ⟨⟨fun b hb => .inr ?_, fun r hr herrno => ?_⟩, fun _ _ _ => trivial⟩
  · revert b
    decide
  · cases hr
    cases herrno

end Run

end Serial
end F32c

import F32c.Dvi.Bursts

/-!
# When the display is right

A frame begins with a frame gap and goes on without one.  What is shown of it is known in
every run, and it is the framebuffer in the order of display if and only if no burst goes
on across a jump of the address register.
-/

namespace F32c
namespace Dvi

open Mode

variable {m : Mode} {mem : Addr → Word} {y : System} {inp : Nat → Input}

section Run

/-- The system after `n` clocks. -/
abbrev System.at (m : Mode) (mem : Addr → Word) (y : System) (inp : Nat → Input) (n : Nat) :
    System :=
  Clocked.stateAt (System.step m mem) y inp n

/-- The pixels that are entered in the first `n` clocks. -/
def System.pixels (m : Mode) (mem : Addr → Word) (y : System) (inp : Nat → Input) (n : Nat) :
    List Rgb :=
  Clocked.trace (System.step m mem) (System.pixel m mem) y inp n

/-- A run through a frame: there is a frame gap, with no burst under way, and then none. -/
structure FrameRun (y : System) (inp : Nat → Input) : Prop where
  burst : y.burst = none
  gap : (inp 0).frameGap = true
  active : ∀ t, (inp (t + 1)).frameGap = false

/-- The memory and the other clock domain do not stop. -/
structure Fair (m : Mode) (mem : Addr → Word) (y : System) (inp : Nat → Input) : Prop where
  accept : ∀ t, ∃ t', t ≤ t' ∧ (inp t').accept = true
  deliver : ∀ t, ∃ t', t ≤ t' ∧ (inp t').deliver = true
  demand : ∀ t, ∃ t', t ≤ t' ∧ (y.at m mem inp t').scan.pixelFifoNeedsMorePixels
    ((y.at m mem inp t').scanInput mem (inp t')) = true

/-- The pixels of a frame as they come from the words that are delivered. -/
def Mode.shown (m : Mode) (mem : Addr → Word) : List Rgb :=
  (List.range m.framePixels).map
    (m.colorOf fun n => mem (m.dmaBase + BitVec.ofNat 30 (m.burstWord n)))

variable (hr : FrameRun y inp) (hon : m.bpp ≠ .off)

include hr hon in
/-- The clock of the frame gap. -/
theorem FrameRun.first : Scanning m mem (y.at m mem inp 1) [] [] ∧ y.pixels m mem inp 1 = [] := by
  have hgap : (y.scanInput mem (inp 0)).frameGap = true := hr.gap
  have hcontrol : y.scan.control m (y.scanInput mem (inp 0)) = y.scan.newFrame m := by
    rw [Scan.control, if_neg hon, if_pos hgap]
  have hstep : (y.at m mem inp 1).scan = { y.scan.newFrame m with
      dmaHlim := m.hlim, pixelBitposIncr := m.bitposIncr } := by
    change { y.scan.control m (y.scanInput mem (inp 0)) with
      dmaHlim := m.hlim, pixelBitposIncr := m.bitposIncr } = _
    rw [hcontrol]
  have hnone : (y.at m mem inp 1).burst = none := by
    change y.burstNext mem (inp 0) = none
    rw [System.burstNext, hr.burst]
    dsimp only
    rw [if_neg]
    simp [Scan.dmaFifoMayFetch, hgap]
  constructor
  · refine ⟨?_, ?_, ?_, fun n hn => absurd hn (by simp)⟩
    · rw [hstep]
      refine ⟨rfl, rfl, ?_, ?_, ?_, Nat.zero_le _, fun n _ hn => absurd hn (by simp), rfl⟩
      · simp [Scan.newFrame]
      · simp [Scan.newFrame, Mode.bitpos]
      · simp [Scan.newFrame]
    · intro _
      rw [hstep]
      refine ⟨rfl, ?_, ?_, ?_, ?_, ?_⟩
      · simp [Scan.newFrame, Mode.fetchedWord, Mode.fetchedLine]
      · simp [Scan.newFrame]
      · simp [Scan.newFrame]
      · simp only [Scan.newFrame, Mode.fields, List.length_nil, Nat.zero_div, Nat.sub_zero]
        split <;> rfl
      · simp [Scan.newFrame]
    · rw [hnone]
      exact ⟨by simp [level], rfl⟩
  · rw [System.pixels, Clocked.trace_succ]
    change [] ++ (y.scan.pixelOut m (y.scanInput mem (inp 0))).toList = []
    rw [Scan.pixelOut, if_pos (by simp [hgap])]
    rfl

include hr hon in
theorem FrameRun.scanning (n : Nat) :
    ∃ words, Scanning m mem (y.at m mem inp (n + 1)) words (y.pixels m mem inp (n + 1)) := by
  induction n with
  | zero =>
      obtain ⟨hs, hp⟩ := @FrameRun.first m mem y inp hr hon
      exact ⟨[], hp ▸ hs⟩
  | succ n ih =>
      obtain ⟨words, hs⟩ := ih
      rw [System.pixels, Clocked.trace_succ]
      exact ⟨_, hs.step hon (hr.active n)⟩

end Run

section Shown

variable {words : List Word} {pixels : List Rgb}

/-- The pixels of the frame that were entered. -/
theorem Scanning.take_shown (hL : m.hlim.toNat = m.lineWords) (hwhole : m.WholeWords)
    (hs : Scanning m mem y words pixels) :
    pixels.take m.framePixels <+: m.shown mem := by
  have hframe := framePixels_eq hwhole
  have hpos := m.wordPixels_pos
  rw [hs.unpacked.shown, ← List.map_take, List.take_range]
  have hsame : ∀ p ∈ List.range (min m.framePixels pixels.length),
      m.colorOf (wordOf words) p =
        m.colorOf (fun n => mem (m.dmaBase + BitVec.ofNat 30 (m.burstWord n))) p := by
    intro p hp
    rw [List.mem_range, lt_min_iff] at hp
    have hword : p / m.wordPixels < words.length := by
      rw [Nat.div_lt_iff_lt_mul hpos]
      exact Nat.lt_of_lt_of_le hp.2 hs.unpacked.le
    have hin : p / m.wordPixels < m.frameWords := by
      rw [Nat.div_lt_iff_lt_mul hpos, Nat.mul_comm, frameWords, ← hframe]
      exact hp.1
    rw [Mode.colorOf, Mode.colorOf, hs.content _ hword (lt_countedWords.2 ⟨hL, hin⟩)]
  rw [List.map_congr_left hsame, Mode.shown]
  obtain ⟨d, hd⟩ := Nat.exists_eq_add_of_le (Nat.min_le_left m.framePixels pixels.length)
  rw [hd, List.range_add, List.map_append, ← hd]
  exact List.prefix_append _ _

end Shown

section Progress

variable {i : Input} {words : List Word} {pixels : List Rgb} {p : Nat}

/-- An empty FIFO asks for a burst as long as the frame is not complete. -/
theorem Scanning.mayFetch (hs : Scanning m mem y words pixels)
    (hempty : words.length = pixels.length / m.wordPixels) (hn : words.length < m.countedWords)
    (hgap : i.frameGap = false) : y.scan.dmaFifoMayFetch (y.scanInput mem i) = true := by
  have hframe := (lt_countedWords.1 hn).2
  have hfield := (hs.fetching hn).field_ne_zero (lineWords_pos hframe) hframe
  have hne : ∀ x : BitVec 4, x + 1 ≠ x := by decide
  simp only [Scan.dmaFifoMayFetch, Bool.and_eq_true, bne_iff_ne, Bool.not_eq_true']
  refine ⟨⟨hfield, hgap⟩, ?_⟩
  rw [hs.unpacked.head, hs.unpacked.tail, hempty]
  exact hne _

/-- A frame in which `p` pixels were entered, with the words and the burst that `stage` says. -/
def Paused (m : Mode) (mem : Addr → Word) (y : System) (inp : Nat → Input) (p : Nat)
    (stage : Option (Addr × Nat) → Nat → Prop) (t : Nat) : Prop :=
  0 < t ∧ ∃ words, Scanning m mem (y.at m mem inp t) words (y.pixels m mem inp t) ∧
    (y.pixels m mem inp t).length = p ∧ stage (y.at m mem inp t).burst words.length

variable (hr : FrameRun y inp) (hon : m.bpp ≠ .off) (hL : m.hlim.toNat = m.lineWords)

include hr in
theorem FrameRun.gap_false {t : Nat} (ht : 0 < t) : (inp t).frameGap = false := by
  obtain ⟨n, rfl⟩ := Nat.exists_eq_add_of_le' ht
  exact hr.active n

include hr hon in
/-- A clock without a pixel. -/
theorem Scanning.step_none {t : Nat} (ht : 0 < t)
    (hs : Scanning m mem (y.at m mem inp t) words (y.pixels m mem inp t))
    (hnone : (y.at m mem inp t).pixel m mem (inp t) = none) :
    Scanning m mem (y.at m mem inp (t + 1))
        (words ++ ((y.at m mem inp t).delivered mem (inp t)).toList)
        (y.pixels m mem inp (t + 1)) ∧
      (y.pixels m mem inp (t + 1)).length = (y.pixels m mem inp t).length := by
  have hstep := hs.step hon (hr.gap_false ht)
  rw [System.pixels, Clocked.trace_succ]
  refine ⟨hstep, ?_⟩
  rw [hnone, Option.toList_none, List.append_nil]
  rfl

include hr hon in
/-- With a word in the FIFO the next pixel is entered when it is asked for. -/
theorem next_pixel (hfair : Fair m mem y inp) {t : Nat}
    (h : Paused m mem y inp p (fun _ n => p / m.wordPixels < n) t) :
    ∃ t', t ≤ t' ∧ 0 < t' ∧ (y.pixels m mem inp t').length = p + 1 := by
  refine Clocked.exists_of_wait ?_ ?_ hfair.demand h
  · rintro t ⟨ht, words, hs, hp, hdata⟩ hno
    have hpixel := pixel_eq (i := inp t) hs hon (hr.gap_false ht)
    rw [if_neg (fun hgo => hno hgo.1)] at hpixel
    obtain ⟨hs', hp'⟩ := hs.step_none hr hon ht hpixel
    refine ⟨Nat.succ_pos t, _, hs', hp'.trans hp, ?_⟩
    rw [List.length_append]
    omega
  · rintro t ⟨ht, words, hs, hp, hdata⟩ hyes
    have hpixel := pixel_eq (i := inp t) hs hon (hr.gap_false ht)
    rw [if_pos ⟨hyes, by rw [hp]; exact hdata⟩] at hpixel
    refine ⟨Nat.succ_pos t, ?_⟩
    rw [System.pixels, Clocked.trace_succ, hpixel, List.length_append, Option.toList_some,
      List.length_singleton]
    exact congrArg (· + 1) hp

include hr hon in
/-- A burst brings a word. -/
theorem next_word (hfair : Fair m mem y inp) {t : Nat}
    (h : Paused m mem y inp p (fun b n => b ≠ none ∧ n = p / m.wordPixels) t) :
    ∃ t', t ≤ t' ∧ Paused m mem y inp p (fun _ n => p / m.wordPixels < n) t' := by
  have hnopixel : ∀ t words, 0 < t →
      Scanning m mem (y.at m mem inp t) words (y.pixels m mem inp t) →
      (y.pixels m mem inp t).length = p → words.length = p / m.wordPixels →
      (y.at m mem inp t).pixel m mem (inp t) = none := by
    intro t words ht hs hp hn
    rw [pixel_eq hs hon (hr.gap_false ht), if_neg]
    rw [hp, hn]
    omega
  refine Clocked.exists_of_wait ?_ ?_ hfair.deliver h
  · rintro t ⟨ht, words, hs, hp, hb, hn⟩ hno
    obtain ⟨hs', hp'⟩ := hs.step_none hr hon ht (hnopixel t words ht hs hp hn)
    obtain ⟨⟨a, k⟩, hak⟩ := Option.ne_none_iff_exists'.1 hb
    have hdelivered : (y.at m mem inp t).delivered mem (inp t) = none := by
      rw [System.delivered, hak]
      exact if_neg hno
    have hburst : (y.at m mem inp (t + 1)).burst = some (a, k) := by
      change (y.at m mem inp t).burstNext mem (inp t) = _
      rw [System.burstNext, hak]
      exact if_neg hno
    rw [hdelivered, Option.toList_none, List.append_nil] at hs'
    exact ⟨Nat.succ_pos t, words, hs', hp'.trans hp, by rw [hburst]; exact Option.some_ne_none _, hn⟩
  · rintro t ⟨ht, words, hs, hp, hb, hn⟩ hyes
    obtain ⟨hs', hp'⟩ := hs.step_none hr hon ht (hnopixel t words ht hs hp hn)
    obtain ⟨⟨a, k⟩, hak⟩ := Option.ne_none_iff_exists'.1 hb
    have hdelivered : ∃ w, (y.at m mem inp t).delivered mem (inp t) = some w := by
      rw [System.delivered, hak]
      exact ⟨_, if_pos hyes⟩
    obtain ⟨w, hw⟩ := hdelivered
    rw [hw, Option.toList_some] at hs'
    refine ⟨Nat.succ_pos t, _, hs', hp'.trans hp, ?_⟩
    rw [List.length_append, List.length_singleton]
    omega

include hr hon hL in
/-- A request is accepted. -/
theorem next_burst (hfair : Fair m mem y inp) (hn : p / m.wordPixels < m.frameWords) {t : Nat}
    (h : Paused m mem y inp p (fun b n => b = none ∧ n = p / m.wordPixels) t) :
    ∃ t', t ≤ t' ∧ Paused m mem y inp p (fun b n => b ≠ none ∧ n = p / m.wordPixels) t' := by
  have hstep : ∀ t words, 0 < t →
      Scanning m mem (y.at m mem inp t) words (y.pixels m mem inp t) →
      (y.pixels m mem inp t).length = p → (y.at m mem inp t).burst = none →
      words.length = p / m.wordPixels →
      (Scanning m mem (y.at m mem inp (t + 1)) words (y.pixels m mem inp (t + 1)) ∧
        (y.pixels m mem inp (t + 1)).length = p) ∧
      (y.at m mem inp (t + 1)).burst =
        if (inp t).accept then some ((y.at m mem inp t).scan.dmaCur, 0) else none := by
    intro t words ht hs hp hb hw
    have hgap := hr.gap_false ht
    have hpixel : (y.at m mem inp t).pixel m mem (inp t) = none := by
      rw [pixel_eq hs hon hgap, if_neg]
      rw [hp, hw]
      omega
    have hdelivered : (y.at m mem inp t).delivered mem (inp t) = none := by
      rw [System.delivered, hb]
    obtain ⟨hs', hp'⟩ := hs.step_none hr hon ht hpixel
    rw [hdelivered, Option.toList_none, List.append_nil] at hs'
    refine ⟨⟨hs', hp'.trans hp⟩, ?_⟩
    have hmay := hs.mayFetch (i := inp t) (by rw [hw, hp])
      (by rw [hw]; exact lt_countedWords.2 ⟨hL, hn⟩) hgap
    change (y.at m mem inp t).burstNext mem (inp t) = _
    rw [System.burstNext, hb]
    dsimp only
    rw [hmay, Bool.true_and]
  refine Clocked.exists_of_wait ?_ ?_ hfair.accept h
  · rintro t ⟨ht, words, hs, hp, hb, hw⟩ hno
    obtain ⟨⟨hs', hp'⟩, hb'⟩ := hstep t words ht hs hp hb hw
    rw [if_neg hno] at hb'
    exact ⟨Nat.succ_pos t, words, hs', hp', hb', hw⟩
  · rintro t ⟨ht, words, hs, hp, hb, hw⟩ hyes
    obtain ⟨⟨hs', hp'⟩, hb'⟩ := hstep t words ht hs hp hb hw
    rw [if_pos hyes] at hb'
    exact ⟨Nat.succ_pos t, words, hs', hp', by rw [hb']; exact Option.some_ne_none _, hw⟩

include hr hon hL in
/-- All pixels of the frame are entered some time. -/
theorem FrameRun.complete (hwhole : m.WholeWords) (hfair : Fair m mem y inp) (p : Nat)
    (hp : p ≤ m.framePixels) : ∃ t, 0 < t ∧ (y.pixels m mem inp t).length = p := by
  induction p with
  | zero =>
      obtain ⟨-, hnil⟩ := @FrameRun.first m mem y inp hr hon
      exact ⟨1, Nat.one_pos, by rw [hnil]; rfl⟩
  | succ p ih =>
      obtain ⟨t, ht, hlen⟩ := ih (by omega)
      obtain ⟨n, rfl⟩ := Nat.exists_eq_add_of_le' ht
      obtain ⟨words, hs⟩ := @FrameRun.scanning m mem y inp hr hon n
      have hn : p / m.wordPixels < m.frameWords := by
        rw [Nat.div_lt_iff_lt_mul m.wordPixels_pos, Nat.mul_comm, frameWords,
          ← framePixels_eq hwhole]
        omega
      have hle := hs.unpacked.tail_le
      rw [hlen] at hle
      rcases Nat.lt_or_ge (p / m.wordPixels) words.length with hdata | hempty
      · obtain ⟨t', -, h⟩ := next_pixel hr hon hfair ⟨ht, words, hs, hlen, hdata⟩
        exact ⟨t', h⟩
      · have hw : words.length = p / m.wordPixels := by omega
        have hbusy : ∃ t', Paused m mem y inp p (fun b n => b ≠ none ∧ n = p / m.wordPixels) t' := by
          by_cases hb : (y.at m mem inp (n + 1)).burst = none
          · obtain ⟨t', -, h⟩ := next_burst hr hon hL hfair hn ⟨ht, words, hs, hlen, hb, hw⟩
            exact ⟨t', h⟩
          · exact ⟨n + 1, ht, words, hs, hlen, hb, hw⟩
        obtain ⟨t₁, h₁⟩ := hbusy
        obtain ⟨t₂, -, h₂⟩ := next_word hr hon hfair h₁
        obtain ⟨t₃, -, h₃⟩ := next_pixel hr hon hfair h₂
        exact ⟨t₃, h₃⟩

end Progress

section Frames

/-- The frames on the display are the frames in the memory. -/
def ShowsFramebuffer (m : Mode) : Prop :=
  ∀ (mem : Addr → Word) (y : System) (inp : Nat → Input), FrameRun y inp →
    (∀ n, (y.pixels m mem inp n).take m.framePixels <+: m.frame mem) ∧
      (Fair m mem y inp → ∃ n, m.frame mem <+: y.pixels m mem inp n)

/-- When a word comes, the first FIFO is not full. -/
def NeverOverflows (m : Mode) : Prop :=
  ∀ (mem : Addr → Word) (y : System) (inp : Nat → Input), FrameRun y inp → ∀ n,
    ((y.at m mem inp n).scanInput mem (inp n)).dataReady = true →
      (y.at m mem inp n).scan.dmaFifoHead + 1 ≠ (y.at m mem inp n).scan.dmaFifoTail

theorem never_overflows (hon : m.bpp ≠ .off) : NeverOverflows m := by
  intro mem y inp hr n hready
  cases n with
  | zero =>
      -- the frame begins without a burst
      change (y.burst.isSome && (inp 0).deliver) = true at hready
      rw [hr.burst] at hready
      simp at hready
  | succ n =>
      obtain ⟨words, hs⟩ := @FrameRun.scanning m mem y inp hr hon n
      exact hs.room

/-- What is entered of a frame, whatever the mode. -/
theorem FrameRun.take_shown (hr : FrameRun y inp) (hon : m.bpp ≠ .off)
    (hL : m.hlim.toNat = m.lineWords) (hwhole : m.WholeWords) (n : Nat) :
    (y.pixels m mem inp n).take m.framePixels <+: m.shown mem := by
  cases n with
  | zero =>
      rw [System.pixels, Clocked.trace, List.range_zero, List.flatMap_nil, List.take_nil]
      exact List.nil_prefix
  | succ n =>
      obtain ⟨words, hs⟩ := @FrameRun.scanning m mem y inp hr hon n
      exact hs.take_shown hL hwhole

theorem FrameRun.exists_shown (hr : FrameRun y inp) (hon : m.bpp ≠ .off)
    (hL : m.hlim.toNat = m.lineWords) (hwhole : m.WholeWords) (hfair : Fair m mem y inp) :
    ∃ n, y.pixels m mem inp n = m.shown mem := by
  obtain ⟨n, -, hlen⟩ := hr.complete hon hL hwhole hfair m.framePixels (Nat.le_refl _)
  have htake := @FrameRun.take_shown m mem y inp hr hon hL hwhole n
  rw [List.take_of_length_le (Nat.le_of_eq hlen)] at htake
  refine ⟨n, htake.eq_of_length ?_⟩
  rw [hlen, Mode.shown, List.length_map, List.length_range]

theorem word_of_pixel (hwhole : m.WholeWords) {p : Nat} (hp : p < m.framePixels) :
    p / m.wordPixels < m.frameWords := by
  rw [Nat.div_lt_iff_lt_mul m.wordPixels_pos, Nat.mul_comm, frameWords, ← framePixels_eq hwhole]
  exact hp

theorem shows_of_fit (hfit : m.BurstsFit) (hon : m.bpp ≠ .off)
    (hL : m.hlim.toNat = m.lineWords) (hwhole : m.WholeWords) : ShowsFramebuffer m := by
  have hsame : ∀ mem, m.shown mem = m.frame mem := by
    intro mem
    rw [frame_eq hwhole, Mode.shown]
    refine List.map_congr_left fun p hp => ?_
    have hn := word_of_pixel hwhole (List.mem_range.1 hp)
    rw [Mode.colorOf, Mode.colorOf, hfit.burstWord_eq hn]
  intro mem y inp hr
  rw [← hsame]
  refine ⟨hr.take_shown hon hL hwhole, fun hfair => ?_⟩
  obtain ⟨n, hn⟩ := hr.exists_shown hon hL hwhole hfair
  exact ⟨n, hn ▸ List.prefix_rfl⟩

end Frames

section Eager

/-- The memory and the display go on in every clock. -/
def System.eager (y : System) (n : Nat) : Input where
  frameGap := n == 0
  pixelFifoTailCdc := y.scan.pixelFifoHead.extractLsb' 4 5
  accept := true
  deliver := true

/-- The system when the other parties go on in every clock. -/
def System.eagerAt (m : Mode) (mem : Addr → Word) (y : System) : Nat → System
  | 0 => y
  | n + 1 => (eagerAt m mem y n).step m mem ((eagerAt m mem y n).eager n)

def System.eagerInput (m : Mode) (mem : Addr → Word) (y : System) (n : Nat) : Input :=
  (y.eagerAt m mem n).eager n

theorem at_eager (m : Mode) (mem : Addr → Word) (y : System) (n : Nat) :
    y.at m mem (y.eagerInput m mem) n = y.eagerAt m mem n := by
  induction n with
  | zero => rfl
  | succ n ih =>
      rw [System.at, Clocked.stateAt_succ, ← System.at, ih]
      rfl

theorem eager_run (m : Mode) (mem : Addr → Word) (hb : y.burst = none) :
    FrameRun y (y.eagerInput m mem) :=
  ⟨hb, rfl, fun _ => rfl⟩

theorem eager_fair (m : Mode) (mem : Addr → Word) (y : System) :
    Fair m mem y (y.eagerInput m mem) := by
  have hne : ∀ x : BitVec 5, x ≠ x + 1 := by decide
  refine ⟨fun t => ⟨t, Nat.le_refl t, rfl⟩, fun t => ⟨t, Nat.le_refl t, rfl⟩,
    fun t => ⟨t, Nat.le_refl t, ?_⟩⟩
  rw [at_eager]
  exact bne_iff_ne.2 (hne _)

theorem displayLine_le (m : Mode) (k : Nat) : m.displayLine k ≤ 2 * k + 1 := by
  rw [displayLine]
  split
  · dsimp only
    split_ifs <;> omega
  · split <;> omega

theorem fetchedLine_le (m : Mode) (k : Nat) : m.fetchedLine k ≤ 3 * k := by
  have hmod := Nat.mod_le k m.fieldLines
  have hdiv := Nat.div_le_self k m.fieldLines
  rw [fetchedLine]
  split_ifs <;> omega

/-- The framebuffer is smaller than the memory. -/
theorem place_lt {line x : Nat} (hline : line ≤ 3 * 2 ^ 11) (hx : x < m.lineWords + 32) :
    line * m.lineWords + x < 2 ^ 30 := by
  have hL : m.lineWords ≤ 2 ^ 12 := by
    have hh := m.hdisp.isLt
    have hbits : m.bpp.bits ≤ 32 := by
      cases m.bpp <;> decide
    have hmul : m.hdisp.toNat * m.bpp.bits ≤ 2 ^ 12 * 32 := Nat.mul_le_mul (by omega) hbits
    rw [lineWords]
    refine Nat.div_le_of_le_mul ?_
    have hscale := Nat.mul_le_mul_left (32 * 2 ^ 12) m.scale_pos
    rw [Nat.mul_one] at hscale
    calc m.hdisp.toNat * m.bpp.bits ≤ 32 * 2 ^ 12 := by rwa [Nat.mul_comm 32]
      _ ≤ 32 * 2 ^ 12 * m.scale := hscale
      _ = 32 * m.scale * 2 ^ 12 := by ring
  have hmul : line * m.lineWords ≤ 3 * 2 ^ 11 * 2 ^ 12 := Nat.mul_le_mul hline hL
  omega

theorem rgb_ones_ne (bpp : Bpp) : rgb bpp (BitVec.allOnes 32) ≠ rgb bpp 0 := by
  cases bpp <;> decide

/-- A wrong word is seen on the display. -/
theorem not_shows (hfit : ¬m.BurstsFit) (hon : m.bpp ≠ .off) (hL : m.hlim.toNat = m.lineWords)
    (hwhole : m.WholeWords) : ¬ShowsFramebuffer m := by
  obtain ⟨n, hn, hne⟩ := exists_burstWord_ne hfit
  have hpos := lineWords_pos hn
  have hv := m.vdisp.isLt
  have hk := line_lt hn
  have hdisplay : m.displayWord n < 2 ^ 30 := by
    have hx := Nat.mod_lt n hpos
    exact place_lt (Nat.le_trans (displayLine_le m _) (by omega)) (by omega)
  have hburst : m.burstWord n < 2 ^ 30 := by
    have hx := Nat.mod_lt (burstWords * (n / burstWords)) hpos
    have hr : n % burstWords < 32 := Nat.mod_lt n (by decide)
    have hle : burstWords * (n / burstWords) / m.lineWords ≤ n / m.lineWords :=
      Nat.div_le_div_right (Nat.mul_div_le n burstWords)
    rw [burstWord, fetchedWord, Nat.add_assoc]
    exact place_lt (Nat.le_trans (fetchedLine_le m _) (by omega)) (by omega)
  intro hshows
  -- the word that is to be shown is the only one that is not black
  obtain ⟨mem, hmem⟩ : ∃ mem : Addr → Word, ∀ a, mem a =
      if a = m.dmaBase + BitVec.ofNat 30 (m.displayWord n) then BitVec.allOnes 32 else 0 :=
    ⟨_, fun _ => rfl⟩
  obtain ⟨y, hy⟩ : ∃ y : System, y.burst = none :=
    ⟨⟨⟨fun _ => 0, 0, 0, 0, 0, 0, 0, 0, 0, 0, false, false, fun _ => 0, 0⟩, none⟩, rfl⟩
  have hrun := eager_run m mem hy
  have hfair := eager_fair m mem y
  obtain ⟨t, ht⟩ := (hshows mem y _ hrun).2 hfair
  have hsame : m.frame mem = m.shown mem := by
    have htake := @FrameRun.take_shown m mem y _ hrun hon hL hwhole t
    have hlen : (m.frame mem).length = m.framePixels := by
      rw [frame, List.length_map, List.length_range]
    have hlen' : (m.shown mem).length = m.framePixels := by
      rw [Mode.shown, List.length_map, List.length_range]
    have hall : m.frame mem <+: (y.pixels m mem (y.eagerInput m mem) t).take m.framePixels := by
      rw [← hlen]
      exact List.prefix_take_iff.2 ⟨ht, Nat.le_refl _⟩
    exact (hall.trans htake).eq_of_length (hlen.trans hlen'.symm)
  have hp : n * m.wordPixels < m.framePixels := by
    rw [framePixels_eq hwhole, ← frameWords, Nat.mul_comm]
    exact Nat.mul_lt_mul_of_pos_left hn m.wordPixels_pos
  rw [frame_eq hwhole, Mode.shown] at hsame
  have hcolor := List.map_inj_left.1 hsame (n * m.wordPixels) (List.mem_range.2 hp)
  have hword : n * m.wordPixels / m.wordPixels = n := Nat.mul_div_cancel _ m.wordPixels_pos
  have hbit : m.bitpos (n * m.wordPixels) = 0 := by
    rw [Mode.bitpos, Nat.mul_mod_left, Nat.zero_div, Nat.zero_mul]
  have hother : m.dmaBase + BitVec.ofNat 30 (m.burstWord n) ≠
      m.dmaBase + BitVec.ofNat 30 (m.displayWord n) := by
    rw [Ne, BitVec.add_right_inj, ofNat_eq_iff hburst, BitVec.toNat_ofNat,
      Nat.mod_eq_of_lt hdisplay]
    exact hne
  rw [Mode.colorOf, Mode.colorOf, hword, hbit, hmem, hmem, if_pos rfl, if_neg hother] at hcolor
  exact rgb_ones_ne m.bpp hcolor

/--
The first FIFO never overflows.  In every run a frame of a mode with lines of less than 2048
pixels is displayed as it is in the framebuffer if and only if the bursts fit.
-/
theorem frame_iff (hon : m.bpp ≠ .off) (hwhole : m.WholeWords) (hh : m.hdisp.toNat < 2048) :
    NeverOverflows m ∧ (ShowsFramebuffer m ↔ m.BurstsFit) := by
  have hL := hlim_toNat hh
  refine ⟨never_overflows hon, fun hshows => ?_, fun hfit => shows_of_fit hfit hon hL hwhole⟩
  by_contra hfit
  exact not_shows hfit hon hL hwhole hshows

/-- 1280x720 with 8 bits a pixel: lines of ten bursts. -/
theorem frame_iff_720p :
    NeverOverflows ⟨1280, 720, false, .bpp8, false, 0⟩ ∧
      ShowsFramebuffer ⟨1280, 720, false, .bpp8, false, 0⟩ := by
  have h := @frame_iff ⟨1280, 720, false, .bpp8, false, 0⟩ (by decide) ⟨320, rfl⟩ (by decide)
  exact ⟨h.1, h.2.2 (.inr trivial)⟩

/-- 1920x1080 with 8 bits a pixel and double pixels: lines of seven and a half bursts. -/
theorem frame_1080p_doublepix :
    ¬ShowsFramebuffer ⟨1920, 1080, false, .bpp8, true, 0⟩ := by
  refine not_shows ?_ (by decide) rfl ⟨240, rfl⟩
  change ¬(240 = 0 ∨ 1080 ≤ 1 ∨ 32 ∣ 240)
  decide

end Eager

end Dvi
end F32c

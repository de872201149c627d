import F32c.Files.Refs

/-!
# Every call keeps the table consistent

A call that fails leaves files, private data and descriptors as they were
(`Failed`); `open`, `pipe` and `sio_open` that succeed add one file on fresh
addresses (`Added`); `close` takes one reference away and, with the last one,
the file.  Each of the three keeps `Consistent`.
-/

namespace F32c
namespace Files

/-- A file as `calloc` returns it. -/
def zeroFile : File where
  fOps := none
  fPriv := none
  fileMalloced := false
  fRefc := 0

section Primitives

variable {k t : Kernel} {p q : Nat} {f : File} {v : Priv}

def newFile (k : Kernel) : Kernel :=
  { k with files := Function.update k.files k.next (some zeroFile), next := k.next + 1 }

def newPriv (v : Priv) (k : Kernel) : Kernel :=
  { k with privs := Function.update k.privs k.next (some v), next := k.next + 1 }

def freedFile (p : Nat) (k : Kernel) : Kernel :=
  { k with files := Function.update k.files p none, events := k.events ++ [.freeFile p] }

def freedPriv (q : Nat) (k : Kernel) : Kernel :=
  { k with privs := Function.update k.privs q none, events := k.events ++ [.freePriv q] }

theorem callocFile_true : callocFile true k = (some k.next, newFile k) := by
  rfl

theorem allocPriv_true : allocPriv true v k = (some k.next, newPriv v k) := by
  rfl

theorem derefFile_eq (h : k.files p = some f) : derefFile p k = .ok f := by
  simp [derefFile, h]

theorem freeFile_eq (h : k.files p ≠ none) : freeFile (some p) k = .ok (freedFile p k) := by
  cases hf : k.files p with
  | none => exact absurd hf h
  | some f => simp [freeFile, hf, freedFile]

theorem freePriv_eq (h : k.privs q ≠ none) : freePriv (some q) k = .ok (freedPriv q k) := by
  cases hf : k.privs q with
  | none => exact absurd hf h
  | some v => simp [freePriv, hf, freedPriv]

theorem Kept.of_eq (hnext : t.next = k.next) (hfiles : t.files = k.files)
    (hprivs : t.privs = k.privs) (hts : t.tsFiles = k.tsFiles) : Kept k t where
  next := by omega
  files := by
    intro p _ hp
    rw [hfiles]
    exact hp
  privs := by
    intro q _ hq
    rw [hprivs]
    exact hq
  tsFiles := Or.inl hts

theorem newFile_evolves (k : Kernel) : Evolves k (newFile k) [] := by
  refine Evolves.quiet ⟨Nat.le_succ _, ?_, fun _ _ h => h, Or.inl rfl⟩ rfl
  intro p hp hnone
  simp only [newFile]
  rw [Function.update_of_ne (by omega)]
  exact hnone

theorem newPriv_evolves (v : Priv) (k : Kernel) : Evolves k (newPriv v k) [] := by
  refine Evolves.quiet ⟨Nat.le_succ _, fun _ _ h => h, ?_, Or.inl rfl⟩ rfl
  intro q hq hnone
  simp only [newPriv]
  rw [Function.update_of_ne (by omega)]
  exact hnone

theorem freedFile_evolves (hlt : p < k.next) (hp : k.files p ≠ none) :
    Evolves k (freedFile p k) [.freeFile p] where
  kept :=
    { next := Nat.le_refl _
      files := by
        intro p' _ hnone
        by_cases heq : p' = p
        · simp [freedFile, heq]
        · simpa [freedFile, heq] using hnone
      privs := fun _ _ h => h
      tsFiles := Or.inl rfl }
  events := rfl
  gone := by
    intro e he
    rw [List.mem_singleton] at he
    subst he
    exact ⟨hlt, by simp [freedFile]⟩
  live := by
    intro e he _ hg
    rw [List.mem_singleton] at he
    subst he
    exact hp hg.2
  once := List.nodup_singleton _

theorem freedPriv_evolves (hlt : q < k.next) (hq : k.privs q ≠ none) :
    Evolves k (freedPriv q k) [.freePriv q] where
  kept :=
    { next := Nat.le_refl _
      files := fun _ _ h => h
      privs := by
        intro q' _ hnone
        by_cases heq : q' = q
        · simp [freedPriv, heq]
        · simpa [freedPriv, heq] using hnone
      tsFiles := Or.inl rfl }
  events := rfl
  gone := by
    intro e he
    rw [List.mem_singleton] at he
    subst he
    exact ⟨hlt, by simp [freedPriv]⟩
  live := by
    intro e he _ hg
    rw [List.mem_singleton] at he
    subst he
    exact hq hg.2
  once := List.nodup_singleton _

theorem storeFile_evolves (hp : k.files p ≠ none) (f : File) :
    Evolves k (storeFile p f k) [] := by
  refine Evolves.quiet ⟨Nat.le_refl _, ?_, fun _ _ h => h, Or.inl rfl⟩ rfl
  intro p' _ hnone
  have hne : p' ≠ p := by
    rintro rfl
    exact hp hnone
  simpa [storeFile, hne] using hnone

end Primitives

/-- A call that failed: only free slots were added to the table. -/
structure Failed (k t : Kernel) : Prop where
  files : t.files = k.files
  privs : t.privs = k.privs
  sioFoClose : t.sioFoClose = k.sioFoClose
  slots : ∃ n, t.slots = k.slots ++ List.replicate n none
  table : TableInv t
  evolves : ∃ new, Evolves k t new

/-- A call that added a file with its private data, on addresses not used before. -/
structure Added (k t : Kernel) (p q : Nat) (f : File) (v : Priv) : Prop where
  files : t.files = Function.update k.files p (some f)
  privs : t.privs = Function.update k.privs q (some v)
  file_range : k.next ≤ p ∧ p < t.next
  priv_range : k.next ≤ q ∧ q < t.next
  priv : f.fPriv = some q
  malloced : f.fileMalloced = true
  refc : 0 < f.fRefc ∧ f.fRefc ≤ 3
  refs : ∀ p', refs t p' = refs k p' + if p' = p then f.fRefc else 0
  closing : k.sioFoClose = true → t.sioFoClose = true
  ops : ∃ o, f.fOps = some o ∧ (o = .sio → t.sioFoClose = true ∧ ∃ port, v = .sio port)
  table : TableInv t
  evolves : ∃ new, Evolves k t new

section Consistency

variable {k t : Kernel} {p q : Nat} {f : File} {v : Priv}

theorem mem_slots_iff : some p ∈ k.slots ↔ 0 < refs k p := by
  rw [refs, List.count_pos_iff]

theorem Consistent.refs_eq_zero (h : Consistent k) (hp : k.files p = none) : refs k p = 0 := by
  by_contra hne
  exact h.live p (mem_slots_iff.mpr (Nat.pos_of_ne_zero hne)) hp

theorem Failed.refs (h : Failed k t) (p : Nat) : Files.refs t p = Files.refs k p := by
  obtain ⟨n, hn⟩ := h.slots
  rw [Files.refs, Files.refs, hn, count_append_free]

theorem Failed.occupied (h : Failed k t) : Files.occupied t = Files.occupied k := by
  obtain ⟨n, hn⟩ := h.slots
  funext fd
  unfold Files.occupied
  rw [hn, List.getElem?_append]
  split
  · rfl
  · rename_i hlt
    rw [List.getElem?_replicate, List.getElem?_eq_none (by omega)]
    split <;> rfl

theorem consistent_of_failed (h : Consistent k) (hf : Failed k t) : Consistent t := by
  have hrefs := hf.refs
  have hmem : ∀ p, some p ∈ t.slots ↔ some p ∈ k.slots := by
    intro p
    rw [mem_slots_iff, mem_slots_iff, hrefs]
  obtain ⟨new, hev⟩ := hf.evolves
  obtain ⟨hgone, honce⟩ := hev.record h.gone h.once
  exact
    { live := by
        intro p hp
        rw [hf.files]
        exact h.live p ((hmem p).mp hp)
      refc := by
        intro p f hp
        rw [hf.files] at hp
        rw [hrefs]
        exact h.refc p f hp
      few := by
        intro p
        rw [hrefs]
        exact h.few p
      held := by
        intro p f hp hm
        rw [hf.files] at hp
        exact (hmem p).mpr (h.held p f hp hm)
      owned := by
        intro p f hp
        rw [hf.files] at hp
        rw [hf.privs, hf.sioFoClose]
        exact h.owned p f hp
      alone := by
        rw [hf.files]
        exact h.alone
      fresh := by
        intro p hp
        rw [hf.files, hf.privs]
        exact h.fresh p (Nat.le_trans hev.kept.next hp)
      table := hf.table
      gone := hgone
      once := honce }

theorem consistent_of_added (h : Consistent k) (ha : Added k t p q f v) : Consistent t := by
  obtain ⟨new, hev⟩ := ha.evolves
  obtain ⟨hgone, honce⟩ := hev.record h.gone h.once
  have hfresh := h.fresh p ha.file_range.1
  have hfreshq := h.fresh q ha.priv_range.1
  have hzero := h.refs_eq_zero hfresh.1
  have hself : t.files p = some f := by rw [ha.files, Function.update_self]
  have hother : ∀ p', p' ≠ p → t.files p' = k.files p' := by
    intro p' hne
    rw [ha.files, Function.update_of_ne hne]
  have hrefs : ∀ p', p' ≠ p → refs t p' = refs k p' := by
    intro p' hne
    rw [ha.refs, if_neg hne, Nat.add_zero]
  have hrefsp : refs t p = f.fRefc := by rw [ha.refs, if_pos rfl, hzero, Nat.zero_add]
  have hpriv : ∀ p' f', k.files p' = some f' → f'.fPriv ≠ some q := by
    intro p' f' hp' heq
    obtain ⟨o, q', v', -, hq', hv', -⟩ := h.owned p' f' hp'
    rw [heq] at hq'
    cases hq'
    rw [hfreshq.2] at hv'
    cases hv'
  exact
    { live := by
        intro p' hp'
        by_cases hne : p' = p
        · rw [hne, hself]
          simp
        · rw [hother p' hne]
          rw [mem_slots_iff, hrefs p' hne, ← mem_slots_iff] at hp'
          exact h.live p' hp'
      refc := by
        intro p' f' hp'
        by_cases hne : p' = p
        · subst hne
          rw [hself] at hp'
          cases hp'
          exact hrefsp.symm
        · rw [hother p' hne] at hp'
          rw [hrefs p' hne]
          exact h.refc p' f' hp'
      few := by
        intro p'
        by_cases hne : p' = p
        · rw [hne, hrefsp]
          exact ha.refc.2
        · rw [hrefs p' hne]
          exact h.few p'
      held := by
        intro p' f' hp' hm
        rw [mem_slots_iff]
        by_cases hne : p' = p
        · rw [hne, hrefsp]
          exact ha.refc.1
        · rw [hother p' hne] at hp'
          rw [hrefs p' hne, ← mem_slots_iff]
          exact h.held p' f' hp' hm
      owned := by
        intro p' f' hp'
        by_cases hne : p' = p
        · subst hne
          rw [hself] at hp'
          cases hp'
          obtain ⟨o, ho, hsio⟩ := ha.ops
          exact ⟨o, q, v, ho, ha.priv, by rw [ha.privs, Function.update_self],
            fun hs => ⟨fun _ => (hsio hs).1, (hsio hs).2⟩⟩
        · rw [hother p' hne] at hp'
          obtain ⟨o, q', v', ho, hq', hv', hsio⟩ := h.owned p' f' hp'
          have hqne : q' ≠ q := by
            rintro rfl
            exact hpriv p' f' hp' hq'
          exact ⟨o, q', v', ho, hq', by rw [ha.privs, Function.update_of_ne hqne]; exact hv',
            fun hs => ⟨fun hm => ha.closing ((hsio hs).1 hm), (hsio hs).2⟩⟩
      alone := by
        intro p1 p2 f1 f2 h1 h2 heq
        by_cases hne1 : p1 = p <;> by_cases hne2 : p2 = p
        · rw [hne1, hne2]
        · rw [hne1, hself] at h1
          cases h1
          rw [hother p2 hne2] at h2
          exact absurd (heq ▸ ha.priv) (hpriv p2 f2 h2)
        · rw [hne2, hself] at h2
          cases h2
          rw [hother p1 hne1] at h1
          exact absurd (heq.trans ha.priv) (hpriv p1 f1 h1)
        · rw [hother p1 hne1] at h1
          rw [hother p2 hne2] at h2
          exact h.alone p1 p2 f1 f2 h1 h2 heq
      fresh := by
        intro p' hp'
        have hp := ha.file_range
        have hq := ha.priv_range
        have hk := h.fresh p' (Nat.le_trans hev.kept.next hp')
        rw [ha.files, ha.privs, Function.update_of_ne (by omega), Function.update_of_ne (by omega)]
        exact hk
      table := ha.table
      gone := hgone
      once := honce }

end Consistency

end Files
end F32c

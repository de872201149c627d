import F32c.Files.Table

/-!
# Descriptors and reference counts

The invariant of the descriptor table.  Every slot refers to a live file, every
live file counts the slots that refer to it, and every file from the heap owns
its private data alone.  Freed pointers are recorded once and never become live
again.

`fd_ref` is described once, by `Referred`: it fills a slot that was free, in the
old table or in one that was grown.  The calls are then sequences of such
updates on a pointer that no slot referred to before.
-/

namespace F32c
namespace Files

/-- The file a descriptor refers to. -/
def occupied (k : Kernel) (fd : Nat) : Option Nat :=
  (k.slots[fd]?).join

/-- The reference counts of the live files. -/
def refcs (k : Kernel) (p : Nat) : Option Nat :=
  (k.files p).map File.fRefc

/-- Number of slots that refer to a file. -/
def refs (k : Kernel) (p : Nat) : Nat :=
  k.slots.count (some p)

def Event.isFree : Event → Bool
  | .foClose _ _ => false
  | _ => true

/-- A freed pointer was allocated once and is not live any more. -/
def Event.Gone (k : Kernel) : Event → Prop
  | .foClose _ _ => True
  | .freePriv q => q < k.next ∧ k.privs q = none
  | .freeFile p => p < k.next ∧ k.files p = none
  | .freeTable t => t < k.next ∧ k.tsFiles ≠ some t

/-- The table: the static one has three slots, any larger one is on the heap. -/
structure TableInv (k : Kernel) : Prop where
  size : 3 ≤ k.slots.length
  heap : 3 < k.slots.length → k.tsFiles ≠ none
  old : ∀ t, k.tsFiles = some t → t < k.next

/-- No object lives at an address that was not handed out yet. -/
def Fresh (k : Kernel) : Prop :=
  ∀ p, k.next ≤ p → k.files p = none ∧ k.privs p = none

/-- The invariant of the descriptor table. -/
structure Consistent (k : Kernel) : Prop where
  live : ∀ p, some p ∈ k.slots → k.files p ≠ none
  refc : ∀ p f, k.files p = some f → f.fRefc = refs k p
  few : ∀ p, refs k p ≤ 3
  held : ∀ p f, k.files p = some f → f.fileMalloced = true → some p ∈ k.slots
  owned : ∀ p f, k.files p = some f → ∃ o q v,
    f.fOps = some o ∧ f.fPriv = some q ∧ k.privs q = some v ∧
      (o = .sio → (f.fileMalloced = true → k.sioFoClose = true) ∧ ∃ port, v = .sio port)
  alone : ∀ p p' f f', k.files p = some f → k.files p' = some f' → f.fPriv = f'.fPriv → p = p'
  fresh : Fresh k
  table : TableInv k
  gone : ∀ e ∈ k.events, e.Gone k
  once : (k.events.filter Event.isFree).Nodup

section Slots

variable {l : List (Option Nat)} {p q : Nat} {fd : Nat}

/-- A free slot takes a pointer: that pointer gains one reference, the others none. -/
theorem count_set_free (h : l[fd]? = some none) (q : Nat) :
    (l.set fd (some p)).count (some q) = l.count (some q) + if q = p then 1 else 0 := by
  obtain ⟨hlt, hget⟩ := List.getElem?_eq_some_iff.mp h
  rw [List.count_set hlt, hget]
  by_cases hq : q = p
  · simp [hq]
  · simp [hq, Ne.symm hq]

/-- A slot is cleared: the pointer it held loses one reference. -/
theorem count_set_none (h : l[fd]? = some (some p)) (q : Nat) :
    (l.set fd none).count (some q) + (if q = p then 1 else 0) = l.count (some q) := by
  obtain ⟨hlt, hget⟩ := List.getElem?_eq_some_iff.mp h
  rw [List.count_set hlt, hget]
  by_cases hq : q = p
  · subst hq
    have : 0 < l.count (some q) := List.count_pos_iff.mpr (List.mem_of_getElem? h)
    simp
    omega
  · simp [hq, Ne.symm hq]

theorem count_append_free (n : Nat) :
    (l ++ List.replicate n none).count (some q) = l.count (some q) := by
  simp [List.count_append, List.count_replicate]

end Slots

section Reference

variable {k t : Kernel} {p : Nat} {f : File}

theorem fdFindfree_some {fd : Nat} (h : fdFindfree k 0 = some fd) : k.slots[fd]? = some none := by
  have := List.find?_some h
  simpa using this

theorem fdFindfree_none (h : fdFindfree k 0 = none) : none ∉ k.slots := by
  intro hmem
  obtain ⟨fd, hlt, hget⟩ := List.getElem_of_mem hmem
  have := List.find?_eq_none.mp h fd (by simp [List.mem_range'_1]; omega)
  simp [List.getElem?_eq_getElem hlt, hget] at this

/-- The effect of a successful `fd_ref`. -/
structure Referred (k t : Kernel) (fd : Nat) (p : Nat) (f : File) : Prop where
  files : t.files = Function.update k.files p (some { f with fRefc := (f.fRefc + 1) % 2 ^ 16 })
  privs : t.privs = k.privs
  sioFiles : t.sioFiles = k.sioFiles
  sioFoClose : t.sioFoClose = k.sioFoClose
  slots : ∃ n, t.slots = (k.slots ++ List.replicate n none).set fd (some p) ∧
    (k.slots ++ List.replicate n none)[fd]? = some none ∧ (n = 0 ∨ n = k.slots.length)
  table : TableInv t
  next : k.next ≤ t.next
  events : t.events = k.events ∧ t.tsFiles = k.tsFiles ∨
    t.tsFiles = some k.next ∧ k.next < t.next ∧
      (t.events = k.events ∨ ∃ b, k.tsFiles = some b ∧ t.events = k.events ++ [.freeTable b])

/-- The table after `fd_ref` has filled a slot. -/
def stored (k : Kernel) (fd : Nat) (p : Nat) (f : File) : Kernel :=
  { k with
    files := Function.update k.files p (some { f with fRefc := (f.fRefc + 1) % 2 ^ 16 })
    slots := k.slots.set fd (some p) }

/-- The table after it was grown, with the tables freed. -/
def expanded (k : Kernel) (ev : List Event) : Kernel :=
  { k with
    slots := k.slots ++ List.replicate k.slots.length none
    tsFiles := some k.next
    next := k.next + 1
    events := k.events ++ ev }

theorem fdStore_eq (hf : k.files p = some f) (fd : Nat) :
    fdStore fd p k = .ok (stored k fd p f) := by
  simp [fdStore, derefFile, hf, storeFile, bind, Except.bind, stored]

theorem fdExpand_eq (h : TableInv k) :
    ∃ ev, fdExpand k = .ok (expanded k ev) ∧
      (ev = [] ∨ ∃ b, k.tsFiles = some b ∧ ev = [.freeTable b]) := by
  unfold fdExpand
  by_cases hlen : k.slots.length > 3
  · cases ht : k.tsFiles with
    | none => exact absurd ht (h.heap hlen)
    | some b => exact ⟨[.freeTable b], by simp [hlen, expanded], Or.inr ⟨b, rfl, rfl⟩⟩
  · exact ⟨[], by simp [hlen, expanded], Or.inl rfl⟩

/-- `fd_ref` fails only with a full table that cannot be grown, and otherwise fills a free slot. -/
theorem fdRef_spec (h : TableInv k) (hf : k.files p = some f) (tableOk : Bool) :
    (none ∉ k.slots ∧ tableOk = false ∧ fdRef tableOk (some p) k = .ok (none, k)) ∨
    ((none ∈ k.slots ∨ tableOk = true) ∧
      ∃ fd t, fdRef tableOk (some p) k = .ok (some fd, t) ∧ Referred k t fd p f) := by
  cases hfree : fdFindfree k 0 with
  | some fd =>
      have hget := fdFindfree_some hfree
      refine Or.inr ⟨Or.inl (List.mem_of_getElem? hget), fd, stored k fd p f, ?_, ?_⟩
      · simp only [fdRef, hfree, fdStore_eq hf, bind, Except.bind]
      · exact
          { files := rfl
            privs := rfl
            sioFiles := rfl
            sioFoClose := rfl
            slots := ⟨0, by simp [stored], by simpa using hget, Or.inl rfl⟩
            table := ⟨by simpa [stored] using h.size, by simpa [stored] using h.heap, h.old⟩
            next := Nat.le_refl _
            events := Or.inl ⟨rfl, rfl⟩ }
  | none =>
      cases tableOk with
      | false => exact Or.inl ⟨fdFindfree_none hfree, rfl, by simp [fdRef, hfree]⟩
      | true =>
          obtain ⟨ev, hexp, hev⟩ := fdExpand_eq h
          have hsize := h.size
          have hf' : (expanded k ev).files p = some f := hf
          refine Or.inr ⟨Or.inr rfl, k.slots.length, stored (expanded k ev) k.slots.length p f, ?_, ?_⟩
          · simp only [fdRef, hfree, if_true, hexp, bind, Except.bind, fdStore_eq hf']
          · exact
              { files := rfl
                privs := rfl
                sioFiles := rfl
                sioFoClose := rfl
                slots := ⟨k.slots.length, rfl, by
                  rw [List.getElem?_append_right (Nat.le_refl _), Nat.sub_self,
                    List.getElem?_replicate, if_pos (by omega)], Or.inr rfl⟩
                table :=
                  { size := by simp [stored, expanded]; omega
                    heap := by simp [stored, expanded]
                    old := by simp [stored, expanded] }
                next := Nat.le_succ _
                events := Or.inr ⟨rfl, Nat.lt_succ_self _, by
                  rcases hev with rfl | ⟨b, hb, rfl⟩
                  · exact Or.inl (by simp [stored, expanded])
                  · exact Or.inr ⟨b, hb, rfl⟩⟩ }

end Reference

section Evolution

variable {k t u : Kernel} {p q : Nat}

/-- What no operation undoes: addresses handed out, and objects freed. -/
structure Kept (k t : Kernel) : Prop where
  next : k.next ≤ t.next
  files : ∀ p, p < k.next → k.files p = none → t.files p = none
  privs : ∀ q, q < k.next → k.privs q = none → t.privs q = none
  tsFiles : t.tsFiles = k.tsFiles ∨ ∃ n, k.next ≤ n ∧ t.tsFiles = some n

theorem gone_of_kept (h : Kept k t) {e : Event} (he : e.Gone k) : e.Gone t := by
  have hnext := h.next
  cases e with
  | foClose p ops => trivial
  | freePriv q => exact ⟨by have := he.1; omega, h.privs q he.1 he.2⟩
  | freeFile p => exact ⟨by have := he.1; omega, h.files p he.1 he.2⟩
  | freeTable b =>
      obtain ⟨hlt, hne⟩ := he
      refine ⟨by omega, ?_⟩
      rcases h.tsFiles with hts | ⟨n, hn, hts⟩
      · rwa [hts]
      · rw [hts]
        intro heq
        cases heq
        omega

/-- An operation that frees each object it frees for the first time. -/
structure Evolves (k t : Kernel) (new : List Event) : Prop where
  kept : Kept k t
  events : t.events = k.events ++ new
  gone : ∀ e ∈ new, e.Gone t
  live : ∀ e ∈ new, e.isFree = true → ¬e.Gone k
  once : (new.filter Event.isFree).Nodup

theorem Evolves.quiet (hk : Kept k t) (hev : t.events = k.events) : Evolves k t [] where
  kept := hk
  events := by simp [hev]
  gone := by simp
  live := by simp
  once := by simp

theorem Evolves.trans {new new' : List Event} (h : Evolves k t new) (h' : Evolves t u new') :
    Evolves k u (new ++ new') where
  kept :=
    { next := Nat.le_trans h.kept.next h'.kept.next
      files := fun p hp hf =>
        h'.kept.files p (Nat.lt_of_lt_of_le hp h.kept.next) (h.kept.files p hp hf)
      privs := fun p hp hf =>
        h'.kept.privs p (Nat.lt_of_lt_of_le hp h.kept.next) (h.kept.privs p hp hf)
      tsFiles := by
        rcases h'.kept.tsFiles with h2 | ⟨n, hn, h2⟩
        · rw [h2]
          exact h.kept.tsFiles
        · exact Or.inr ⟨n, Nat.le_trans h.kept.next hn, h2⟩ }
  events := by rw [h'.events, h.events, List.append_assoc]
  gone := by
    intro e he
    rcases List.mem_append.mp he with he | he
    · exact gone_of_kept h'.kept (h.gone e he)
    · exact h'.gone e he
  live := by
    intro e he hfree
    rcases List.mem_append.mp he with he | he
    · exact h.live e he hfree
    · exact fun hg => h'.live e he hfree (gone_of_kept h.kept hg)
  once := by
    rw [List.filter_append]
    refine List.Nodup.append h.once h'.once ?_
    intro e he he'
    rw [List.mem_filter] at he he'
    exact h'.live e he'.1 he'.2 (h.gone e he.1)

/-- Events recorded by an operation keep the record of freed objects in order. -/
theorem Evolves.record {new : List Event} (h : Evolves k t new)
    (hgone : ∀ e ∈ k.events, e.Gone k) (honce : (k.events.filter Event.isFree).Nodup) :
    (∀ e ∈ t.events, e.Gone t) ∧ (t.events.filter Event.isFree).Nodup := by
  rw [h.events]
  refine ⟨?_, ?_⟩
  · intro e he
    rcases List.mem_append.mp he with he | he
    · exact gone_of_kept h.kept (hgone e he)
    · exact h.gone e he
  · rw [List.filter_append]
    refine List.Nodup.append honce h.once ?_
    intro e he he'
    rw [List.mem_filter] at he he'
    exact h.live e he'.1 he'.2 (hgone e he.1)

/-- Objects that stay live are not freed. -/
theorem Evolves.not_freed {new : List Event} (h : Evolves k t new)
    (hfiles : ∀ p, p < k.next → k.files p ≠ none → t.files p ≠ none)
    (hprivs : ∀ q, q < k.next → k.privs q ≠ none → t.privs q ≠ none) (p : Nat) (hp : p < k.next) :
    .freeFile p ∉ new ∧ .freePriv p ∉ new := by
  refine ⟨?_, ?_⟩
  · intro he
    have h1 := (h.gone _ he).2
    exact hfiles p hp (fun hn => h.live _ he rfl ⟨hp, hn⟩) h1
  · intro he
    have h1 := (h.gone _ he).2
    exact hprivs p hp (fun hn => h.live _ he rfl ⟨hp, hn⟩) h1

theorem Referred.evolves {fd : Nat} {f : File} (h : Referred k t fd p f) (hk : TableInv k)
    (hp : k.files p ≠ none) : ∃ new, Evolves k t new := by
  have hkept : Kept k t :=
    { next := h.next
      files := by
        intro p' _ hnone
        have hne : p' ≠ p := by
          rintro rfl
          exact hp hnone
        rw [h.files, Function.update_of_ne hne]
        exact hnone
      privs := by
        intro q _ hq
        rw [h.privs]
        exact hq
      tsFiles := by
        rcases h.events with ⟨-, hts⟩ | ⟨hts, -, -⟩
        · exact Or.inl hts
        · exact Or.inr ⟨k.next, Nat.le_refl _, hts⟩ }
  rcases h.events with ⟨hev, -⟩ | ⟨hts, hlt, hev | ⟨b, hb, hev⟩⟩
  · exact ⟨[], Evolves.quiet hkept hev⟩
  · exact ⟨[], Evolves.quiet hkept hev⟩
  · refine ⟨[.freeTable b], hkept, hev, ?_, ?_, List.nodup_singleton _⟩
    · intro e he
      rw [List.mem_singleton] at he
      subst he
      have hold := hk.old b hb
      refine ⟨by omega, ?_⟩
      rw [hts]
      intro heq
      cases heq
      omega
    · intro e he _ hg
      rw [List.mem_singleton] at he
      subst he
      exact hg.2 hb

end Evolution

end Files
end F32c

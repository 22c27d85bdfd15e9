import Duma.Runs.Alignment
import Duma.Runs.Narrow

/-! # Attempts at a chunk

What an allocation makes of a chunk of which `mmap` has mapped no more than a part, and for which
reason it stops.
-/

namespace Duma

variable {env : Env} {s t u : State} {r : Request} {a i j n al : ℕ} {sl e : Slot} {l : Layout}
  {len : ℕ → ℕ} {A : Stop → Prop} {x y : Prop}

section Chunk

/-- The operating system refuses the first attempt at a chunk. -/
def State.Refused (env : Env) (len : ℕ → ℕ) (n : ℕ) (r : Request) (s : State) : Prop :=
  chunksOverflow (chunkSizeFor env n) r.userSize = true ∨
    s.grant env (len (createdSize env n r)) = none

instance : Decidable (s.Refused env len n r) := inferInstanceAs (Decidable (_ ∨ _))

/-- The process is to exit when the request fails. -/
def Request.Exits (r : Request) (s : State) : Prop :=
  r.fail = .failEnv ∧ s.cfg.mallocFailexit = true

instance : Decidable (r.Exits s) := inferInstanceAs (Decidable (_ ∧ _))

def laterAttempts (env : Env) (len : ℕ → ℕ) (n : ℕ) (r : Request) (a : ℕ) : M ℕ := do
  let s ← get
  if a = 0 ∧ s.cfg.protectFree ≠ 0 then
    let address ← retryCreateBy env len (kB (chunkSizeFor env n)) (createdSize env n r)
      (2 * s.slots.length + 1)
    if address = 0 ∧ r.fail = .failEnv then
      pageCreateBy env len (createdSize env n r) s.cfg.mallocFailexit
    else pure address
  else pure a

def firstAttempt (env : Env) (len : ℕ → ℕ) (n : ℕ) (r : Request) : M ℕ :=
  if chunksOverflow (chunkSizeFor env n) r.userSize then pure 0
  else pageCreateBy env len (createdSize env n r) false

theorem createChunk_eq : createChunkBy env len (chunkSizeFor env n) r =
    firstAttempt env len n r >>= laterAttempts env len n r := by
  unfold createChunkBy firstAttempt
  split <;> rfl

end Chunk

section Blame

/-- A stop for a failed `Page_Create` has the reason `x`, one for want of a slot `y`. -/
structure Blamed (x y : Prop) (e : Stop) : Prop where
  memory : ∀ k, e = .abort (.mmapFailed k) → x
  slot : Shortage e → y

theorem Blamed.imp {x' y' : Prop} {e : Stop} (h : Blamed x y e) (hx : x → x') (hy : y → y') :
    Blamed x' y' e := ⟨fun k he => hx (h.memory k he), fun hs => hy (h.slot hs)⟩

end Blame

section Partial

theorem Open.created (h : Open env s) (ha : env.pageSize ∣ a) : Open env (s.created env a n) := by
  intro x h1 h2
  rw [State.created_page ha]
  split
  exacts [rfl, h x h1 h2]

/-- What is recorded in slot `i` of the attempts at a chunk, from the state before them on. -/
structure Recorded (env : Env) (len : ℕ → ℕ) (n : ℕ) (r : Request) (i : ℕ) (sl : Slot) (s t : State)
    (a : ℕ) (u v : State) : Prop where
  evicts : evictFor env n s = .ok ⟨⟩ t
  creates : createChunkBy env len (chunkSizeFor env n) r t = .ok a u
  created : Created env (len (createdSize env n r)) t a u
  page : ∀ x, v.page env x = u.page env x
  empty : a = 0 → Bases env (fun _ => False) s v ∧
    v.slots[i]? = some { sl with internalAddress := 0 }
  filled : a ≠ 0 → ∃ new, v.slots[i]? = some new ∧ new.internalAddress = a ∧
    new.internalSize = createdSize env n r

/-- However much of a chunk is mapped, it is recorded in the slot. -/
theorem createMore_recorded (hp : Pre env (fun _ => False) s) (hi : s.slots[i]? = some sl)
    (hs : sl.state = .empty) (hj : s.slots[j]? = some e) (he : e.state = .empty) (hij : i ≠ j) :
    Wp (createMoreBy env len n r (some i) (some j))
      (fun x v => x = (i, some j) ∧ v.slots[j]? = some e ∧
        ∃ t a u, Recorded env len n r i sl s t a u v)
      (fun e _ => ¬ NoChunk env len n r s ∧ Blamed (r.Exits s) False e) s := by
  have hne : ∀ {sl : Slot}, sl.state = .empty → ¬ sl.IsProtected := fun h h' => h'.ne_empty h
  have rest : ∀ t, Cedes env s t → evictFor env n s = .ok ⟨⟩ t → Wp (do
      let address ← createChunkBy env len (chunkSizeFor env n) r
      modifySlot env i fun sl => { sl with internalAddress := address }
      if address ≠ 0 then
        modifyBook fun b =>
          { b with
            sumAllocatedMem := b.sumAllocatedMem + Word.mul (kB (chunkSizeFor env n))
              (numChunksFor (chunkSizeFor env n) r.userSize)
            sumTotalAllocatedMem := b.sumTotalAllocatedMem + Word.mul (kB (chunkSizeFor env n))
              (numChunksFor (chunkSizeFor env n) r.userSize)
            unUsedSlots := Word.sub b.unUsedSlots 1 }
        modifySlot env i fun sl =>
          { sl with internalSize := createdSize env n r, state := .free }
      pure (i, some j) : M (ℕ × Option ℕ))
      (fun x v => x = (i, some j) ∧ v.slots[j]? = some e ∧
        ∃ t a u, Recorded env len n r i sl s t a u v)
      (fun e _ => ¬ NoChunk env len n r s ∧ Blamed (r.Exits s) False e) t := by
    intro t ht hev
    have hchunk : Wp (createChunkBy env len (chunkSizeFor env n) r)
        (Created env (len (createdSize env n r)) t)
        (fun e _ => ¬ NoChunk env len n r s ∧ Blamed (r.Exits s) False e) t := by
      have hcfg := (Bases.same (Cedes.bases ht : Bases env (fun _ => False) s t)).cfg
      have hens : Ensures env (fun _ => False) (createChunkBy env len (chunkSizeFor env n) r)
          (Created env (len (createdSize env n r)) t) (Blamed (r.Exits s) False) t :=
        createChunk_ensures fun hf hx => ⟨fun _ _ => ⟨hf, hcfg ▸ hx⟩, nofun⟩
      refine Wp.mono (Wp.and Wp.self hens) (fun _ _ h => h.2) fun e v h => ?_
      exact ⟨noChunk_stops hev h.1, h.2 (hp.inners (Cedes.inners ht))⟩
    apply Wp.seq (Wp.keep hchunk)
    rintro a u ⟨hcr, hcreated⟩
    cases hcreated with
    | none hu ha =>
      have hsu : Cedes env s u := ht.trans hu
      have hiu := Cedes.slot hsu hi (hne hs)
      subst ha
      refine Wp.bind_iff.mpr (modifySlot_wp hiu (Wp.ite (fun h => absurd rfl h) fun _ => ?_)
        fun hO => absurd (hp.inners (Cedes.inners hsu)).ready.open hO)
      refine ⟨rfl, ?_, t, 0, u, hev, hcr, .none hu rfl, fun _ => State.putSlot_page,
        fun _ => ⟨(Cedes.bases hsu).tail (.clear hiu hs), ?_⟩, fun h => absurd rfl h⟩
      · rw [State.getElem?_putSlot hiu, if_neg hij, Cedes.slot hsu hj (hne he)]
      · rw [State.getElem?_putSlot hiu, if_pos rfl]
    | @some u hu ha hg =>
      have hsu : Cedes env s u := ht.trans hu
      have hiu := Cedes.slot hsu hi (hne hs)
      have hopen := (hp.inners (Cedes.inners hsu)).ready.open.created
        (n := len (createdSize env n r)) hg.dvd
      set x : Slot := { sl with internalAddress := a } with hx
      set v := u.created env a (len (createdSize env n r)) with hv
      have hix : (v.putSlot i x).slots[i]? = some x :=
        (State.getElem?_putSlot (s := v) hiu).trans (if_pos rfl)
      refine Wp.bind_iff.mpr (modifySlot_wp (s := v) hiu (Wp.ite (fun _ => ?_) fun h => absurd ha h)
        fun hO => absurd hopen hO)
      refine Wp.bind_iff.mpr (modifyBook_wp.mpr (Wp.bind_iff.mpr (modifySlot_wp
        (s := { v.putSlot i x with book := _ }) hix ?_ fun hO =>
          absurd (Open.withBook.mpr (Open.putSlot.mpr hopen)) hO)))
      set new : Slot := { x with internalSize := createdSize env n r, state := .free }
      have hslot : ∀ k, (v.putSlot i new).slots[k]? = if i = k then some new else v.slots[k]? :=
        fun _ => State.getElem?_putSlot (s := v) hiu
      rw [State.putSlot_withBook, State.putSlot_putSlot (s := v) (v := x) hiu rfl]
      have hju : u.slots[j]? = some e := Cedes.slot hsu hj (hne he)
      have hpage : ∀ (b : Book) (x : ℕ),
          ({ v.putSlot i new with book := b } : State).page env x = v.page env x := fun b x =>
        State.putSlot_page (s := v)
      refine ⟨rfl, ((hslot j).trans (if_neg hij)).trans hju, t, a, v, ?_⟩
      exact {
        evicts := hev
        creates := hcr
        created := .some hu ha hg
        page := hpage _
        empty := fun h => absurd h ha
        filled := fun _ => ⟨new, (hslot i).trans (if_pos rfl), rfl, rfl⟩ }
  refine Wp.bind_iff.mpr (Wp.get_iff.mpr (Wp.ite (fun hc => ?_) fun hc =>
    rest s .refl (evictFor_of_not hc)))
  refine Wp.seq (Wp.keep (Wp.mono (reduceProtectedMemory_ensures (kB_le _).le :
    Ensures env (fun _ => False) _ _ (fun _ => False) s) (fun _ _ => id)
    fun _ _ h => (h hp).elim)) fun _ t ht =>
    rest t (.single (.sweep ht.2.1)) (evictFor_of_reduce hc ht.1)

theorem Recorded.granted {v : State} (h : Recorded env len n r i sl s t a u v) (h0 : a ≠ 0)
    (hz : len 0 = 0) : ¬ NoChunk env len n r s ∧ createdSize env n r ≠ 0 ∧ 0 < a ∧
      env.pageSize ∣ a ∧ a ≤ env.taskSize := by
  have hno := fun hno => h0 ((noChunk_iff h.evicts h.creates).mp hno)
  cases h.created with
  | none _ ha => exact absurd ha h0
  | some _ _ hg =>
    refine ⟨hno, fun h => ?_, hg.pos, hg.dvd, (Nat.le_add_right a _).trans hg.le⟩
    have := hg.size_pos
    rw [h, hz] at this
    exact absurd this (lt_irrefl 0)

end Partial

section Search

theorem allocateFromSlots_chunk {Q : ℕ → State → Prop} {E : Stop → State → Prop} (ho : Open env s)
    (hf : (searchSlots n s.slots 0 Found.none).fullSlot = none)
    (hE : ∀ e, Shortage e → (searchSlots n s.slots 0 Found.none).emptySlot0 = none ∨
      (searchSlots n s.slots 0 Found.none).emptySlot1 = none → E e s)
    (hQ : ∀ (i j : ℕ) (sl e : Slot), (searchSlots n s.slots 0 Found.none).emptySlot0 = some i →
      (searchSlots n s.slots 0 Found.none).emptySlot1 = some j → s.slots[i]? = some sl →
      sl.state = .empty → s.slots[j]? = some e → e.state = .empty → i ≠ j →
      Wp (createMoreBy env len n r (some i) (some j) >>= fun x => do
        let sl ← readSlot env x.1
        if sl.internalSize ≠ 0 then
          splitSlot env x.1 x.2 n
          takeSlot env x.1 n al r
        else pure 0) Q E s) : Wp (allocateFromSlotsBy env len n al r) Q E s := by
  obtain ⟨hv, -⟩ := @searchSlots_spec n s.slots
  refine Wp.seq (R := fun v t => v = s.slots ∧ t = s) (Wp.bind_iff.mpr (Wp.get_iff.mpr
    (Wp.bind_iff.mpr (touch_wp (fun _ => ⟨rfl, rfl⟩) fun hO => absurd ho hO)))) ?_
  rintro _ t ⟨rfl, rfl⟩
  dsimp only
  rw [hf]
  cases h0 : (searchSlots n t.slots 0 Found.none).emptySlot0 with
  | none => exact hE _ .noEmptySlot0 (Or.inl h0)
  | some i =>
    cases h1 : (searchSlots n t.slots 0 Found.none).emptySlot1 with
    | none => exact hE _ .noEmptySlot1 (Or.inr h1)
    | some j =>
      obtain ⟨sl, hi, hs⟩ := hv.empty0 h0
      obtain ⟨⟨e, hj, he⟩, i', hi', hij⟩ := hv.empty1 h1
      obtain rfl : i = i' := Option.some.inj (h0.symm.trans hi')
      exact hQ i j sl e h0 h1 hi hs hj he hij

section Outcome

variable (hs : Safe env s) (ho : Open env s) (hS : Served env n al r)
include hs ho hS

end Outcome

end Search

section Wide

/-- A chunk that no `int` holds is not created, or its last page is missing. -/
theorem createChunk_wide (hc : 2 ^ 31 ≤ createdSize env n r) (hg : ¬ s.Refused env id n r) :
    Post (createChunkBy env intSize (chunkSizeFor env n) r) (fun a t => a ≠ 0 →
      0 < a ∧ env.pageSize ∣ a ∧ a + createdSize env n r ≤ env.taskSize ∧
        t.page env (a + createdSize env n r - env.pageSize) = .unmapped) s := by
  obtain ⟨hov, hg⟩ := not_or.mp hg
  obtain ⟨b, hb⟩ := Option.ne_none_iff_exists'.mp hg
  rw [id_eq] at hb
  have hgb := State.grant_some hb
  have hround : env.roundUp (createdSize env n r) = createdSize env n r :=
    Env.roundUp_of_dvd dvd_createdSize
  have hPl := env.pageSize_lt
  have ht := env.taskSize_le
  by_cases hlen : 2 ^ 63 ≤ intSize (createdSize env n r) ∨ intSize (createdSize env n r) = 0
  · have hcreated : Ensures env (fun _ => False) (createChunkBy env intSize (chunkSizeFor env n) r)
        (Created env (intSize (createdSize env n r)) s) (fun _ => True) s :=
      createChunk_ensures fun _ _ => trivial
    refine Wp.mono hcreated (fun a t hcr h0 => ?_) fun _ _ _ => trivial
    cases hcr with
    | none _ ha => exact absurd ha h0
    | some _ _ hgr =>
      have := hgr.size_pos
      have := hgr.le
      have := env.le_roundUp (intSize (createdSize env n r))
      omega
  · have hlost := (intSize_of_le hc).resolve_left fun h => hlen (Or.inl h)
    have hgrant : s.grant env (intSize (createdSize env n r)) = some b :=
      State.grant_of_le hb (by omega) (by omega)
    rw [createChunk_eq]
    refine Wp.seq (R := fun a t => a = b ∧
      t = s.afterMmap.created env b (intSize (createdSize env n r))) ?_ ?_
    · unfold firstAttempt
      rw [if_neg hov]
      refine pageCreateBy_wp (fun a hga _ _ => ?_) (fun hno => ?_) fun _ _ => trivial
      · rw [hgrant] at hga
        cases hga
        exact ⟨rfl, rfl⟩
      · rw [hgrant] at hno
        cases hno
    · rintro _ _ ⟨rfl, rfl⟩
      apply Wp.bind_iff.mpr
      refine Wp.get_iff.mpr (Wp.ite (fun h => absurd h.1 hgb.pos.ne') fun _ _ => ?_)
      have hle := hgb.le
      rw [hround] at hle
      refine ⟨hgb.pos, hgb.dvd, hle, ?_⟩
      have hup := env.roundUp_lt (intSize (createdSize env n r))
      rw [State.created_page hgb.dvd, if_neg (by omega)]
      exact hgb.fresh _ (by omega) (by have := env.pageSize_pos; omega)

theorem Fits.placeBlock_fails (h : Fits env al r.userSize a)
    (hx : s.page env (a + env.need al r.userSize - env.pageSize) = .unmapped) :
    Wp (placeBlock env a (env.need al r.userSize) al r) (fun _ _ => False) (fun _ _ => True) s := by
  have hle := h.le
  have ht := env.taskSize_le
  have hP := env.pageSize_pos
  have hPl := env.pageSize_lt
  have hn : env.need al r.userSize =
    env.roundUp r.userSize + env.pageSize + (al - env.pageSize) := rfl
  have hru := env.le_roundUp r.userSize
  have hus := h.size_pos
  have fails : ∀ {lo k : ℕ} {p : Page} {t : State} {m : Layout},
      t.page env (a + env.need al r.userSize - env.pageSize) = .unmapped →
      lo ≤ a + env.need al r.userSize - env.pageSize →
      a + env.need al r.userSize - env.pageSize < lo + env.roundUp k →
      Wp (do mprotect env lo k p; pure m : M Layout) (fun _ _ => False) (fun _ _ => True) t :=
    fun hun h1 h2 => Wp.seq (R := fun _ _ => False)
      (mprotect_wp (fun hok => hok.mapped _ h1 h2 hun) fun _ => trivial) fun _ _ => False.elim
  refine Wp.ite (fun h0 => absurd h0 hus.ne') fun _ => Wp.ite (fun _ => ?_) fun _ => ?_
  · obtain ⟨u, q, he, -, hau, hdq, huq, -, hq⟩ := h.above
    have h1 : Word.sub q a = q - a := Word.sub_eq (by omega) (by omega)
    have h2 : Word.sub (Word.add a (env.need al r.userSize)) q =
        a + env.need al r.userSize - q := by
      rw [Word.add_eq (by omega), Word.sub_eq (by omega) (by omega)]
    have hr := Env.roundUp_of_dvd (Nat.dvd_sub hdq h.dvd)
    have hlast := env.le_roundUp (a + env.need al r.userSize - q)
    simp only [he, h1, h2]
    refine Wp.seq (R := fun _ t => t = s.setPages env a (a + env.roundUp (q - a)) .readWrite)
      (mprotect_wp (fun _ => rfl) fun _ => trivial) ?_
    rintro _ _ rfl
    refine fails ?_ (by omega) (by omega)
    rw [State.setPages_page h.dvd (Nat.dvd_add h.dvd (Env.dvd_roundUp _)), if_neg (by omega), hx]
  · obtain ⟨u, q, he, -, -, hqu, haq, -, hu, -⟩ := h.below
    have h1 : Word.sub u q = env.pageSize := by rw [Word.sub_eq (by omega) (by omega)]; omega
    have h2 : Word.sub (env.need al r.userSize) env.pageSize =
      env.need al r.userSize - env.pageSize := Word.sub_eq (by omega) (by omega)
    have hlast := env.le_roundUp (env.need al r.userSize - env.pageSize)
    have hpage := Nat.le_of_dvd (by omega) (@Env.dvd_roundUp env r.userSize)
    simp only [he, h1, h2]
    refine Wp.seq (R := fun _ _ => False) (mprotect_wp (fun hok => ?_) fun _ => trivial)
      fun _ _ => False.elim
    exact hok.mapped _ (by omega) (by omega) hx

theorem Sizes.wide_eq (h : Sizes env al r.userSize)
    (hov : chunksOverflow (chunkSizeFor env (env.need al r.userSize)) r.userSize = false)
    (hc : 2 ^ 31 ≤ createdSize env (env.need al r.userSize) r) :
    createdSize env (env.need al r.userSize) r = env.need al r.userSize := by
  have hlt := h.lt
  have hus := h.size_pos
  have hup := env.roundUp_lt r.userSize
  have hru := env.le_roundUp r.userSize
  have hn : env.need al r.userSize =
    env.roundUp r.userSize + env.pageSize + (al - env.pageSize) := rfl
  have hm : memoryCreationSize = 2 ^ 20 := by decide
  rw [createdSize_eq h.dvd_need (by omega) (by omega) hov] at hc ⊢
  omega

/-- No block comes out of a new chunk that no `int` holds. -/
theorem allocateFromSlots_wide (hs : Safe env s) (ho : Open env s) (hS : Served env n al r)
    (h0 : r.userSize ≠ 0) (hf : (searchSlots n s.slots 0 Found.none).fullSlot = none)
    (hc : 2 ^ 31 ≤ createdSize env n r) (hev : evictFor env n s = .ok ⟨⟩ t)
    (hg : ¬ t.Refused env id n r) :
    Post (allocateFromSlotsBy env intSize n al r) (fun a _ => a = 0) s := by
  have hpre : Pre env (fun _ => False) s := ⟨fun _ => False.elim, hs.core, ho, hs.live⟩
  have hov : chunksOverflow (chunkSizeFor env n) r.userSize = false :=
    Bool.not_eq_true _ ▸ fun h => hg (Or.inl h)
  refine allocateFromSlots_chunk ho hf (fun _ _ _ => trivial)
    fun i j sl e _ _ hi hst hj he hij => ?_
  refine Wp.seq (Wp.mono (createMore_recorded hpre hi hst hj he hij) (fun _ _ => id)
    fun _ _ _ => trivial) ?_
  rintro _ v ⟨rfl, hjv, x, a, u, hrec⟩
  obtain rfl : x = t := by
    have := hrec.evicts
    rw [hev] at this
    cases this
    rfl
  by_cases ha : a = 0
  · obtain ⟨hb, hiv⟩ := hrec.empty ha
    exact Wp.bind_iff.mpr (readSlot_wp hiv (Wp.ite (fun h => absurd (hs.tidy.empty hi hst).1 h)
      fun _ => rfl) fun _ => trivial)
  · obtain ⟨new, hiv, rfl, hsz⟩ := hrec.filled ha
    obtain ⟨hpos, hd, hle, hun⟩ := (createChunk_wide hc hg).returns hrec.creates ha
    cases hS with
    | zero hr => exact absurd hr h0
    | pos hsz' hn =>
      rw [hsz'.internalSizeFor_eq] at hn
      subst hn
      have hsize := hsz'.wide_eq hov hc
      rw [hsize] at hsz hle hun
      rw [← hrec.page] at hun
      have hfits : Fits env al r.userSize new.internalAddress := ⟨hsz', hpos, hd, hle⟩
      refine Wp.bind_iff.mpr (readSlot_wp hiv (Wp.ite (fun _ => ?_) fun h => ?_) fun _ => trivial)
      · refine Wp.seq (R := fun _ t => t = v) (Wp.bind_iff.mpr (readSlot_wp hiv (Wp.ite
          (fun h => ?_) fun _ => rfl) fun _ => trivial)) ?_
        · omega
        rintro _ _ rfl
        exact Wp.bind_iff.mpr (readSlot_wp hiv (Wp.seq (hfits.placeBlock_fails hun)
          fun _ _ => False.elim) fun _ => trivial)
      · rw [hsz] at h
        exact absurd Sizes.need_pos.ne' h

end Wide

end Duma

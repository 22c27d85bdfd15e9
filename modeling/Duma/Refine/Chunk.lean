import Duma.Refine.Evict

/-! # New chunks

The memory for a new chunk comes from `Page_Create`, in the first attempt or after evictions, or
it does not come at all. Only then an empty slot becomes a free one.
-/

namespace Duma

variable {env : Env} {ok : ℕ → Prop} {s s' s'' : State} {a i j k n : ℕ} {sl new : Slot} {r : Request}
  {A : Stop → Prop} {len : ℕ → ℕ}

/-- A chunk of `n` bytes was created at `a`, or none at all if that is 0. -/
inductive Created (env : Env) (n : ℕ) (s : State) (a : ℕ) : State → Prop
  | none {t : State} (h : Cedes env s t) (ha : a = 0) : Created env n s a t
  | some {t : State} (h : Cedes env s t) (ha : a ≠ 0) (hg : t.Granted env a n) :
      Created env n s a (t.created env a n)

theorem Created.of_cedes {t : State} (h : Cedes env s s') (hc : Created env n s' a t) :
    Created env n s a t := by
  cases hc with
  | none h' ha => exact .none (h.trans h') ha
  | some h' ha hg => exact .some (h.trans h') ha hg

theorem Cede.afterMmap (s : State) : Cede env s s.afterMmap :=
  .quiet { s.book with mmapCalls := s.book.mmapCalls + 1 } ⟨rfl, rfl, rfl, rfl⟩

theorem pageCreate_ensures {exitonfail : Bool}
    (hA : exitonfail = true → A (.abort (.mmapFailed n))) :
    Ensures env ok (pageCreateBy env len n exitonfail) (Created env (len n) s) A s := by
  refine pageCreateBy_wp (fun a _ hg h0 => ?_) (fun _ _ => ?_) fun _ h _ => hA h
  · exact .some (.single (Cede.afterMmap s)) h0 ⟨hg.size_pos, hg.dvd, hg.pos, hg.le, hg.fresh⟩
  · exact .none (.single (Cede.afterMmap s)) rfl

theorem retryCreate_ensures (hk : k ≤ 2 ^ 54) (fuel : ℕ) (hf : s.evictable < fuel) :
    Ensures env ok (retryCreateBy env len k n fuel) (Created env (len n) s) A s := by
  induction fuel generalizing s with
  | zero => omega
  | succ fuel ih =>
    refine (reduceProtectedMemory_ensures hk).bind
      (fun _ _ h => Cedes.inners (.single (.sweep h.1))) ?_
    intro more t ht
    refine Wp.seq (pageCreate_ensures (A := A) nofun) ?_
    intro a u hu
    cases hu with
    | some h ha hg =>
      refine Wp.ite (fun hc => ?_) fun _ => .some (h.head (.sweep ht.1)) ha hg
      simp [ha] at hc
    | none h ha =>
      refine Wp.ite (fun hc => ?_) fun _ => .none (h.head (.sweep ht.1)) ha
      have hm : more = true := by simp_all
      have hlt := ht.2
      rw [hm, if_pos rfl] at hlt
      have hle := Cedes.evictable_le h
      refine Ensures.from_inners (Cedes.inners h) ((ih (by omega)).post fun b v hv => ?_)
      exact hv.of_cedes (h.head (.sweep ht.1))

def createdSize (env : Env) (n : ℕ) (r : Request) : ℕ :=
  Word.mul (chunkSizeFor env n) (numChunksFor (chunkSizeFor env n) r.userSize)

theorem dvd_createdSize : env.pageSize ∣ createdSize env n r := by
  have hc : env.pageSize ∣ chunkSizeFor env n :=
    Word.dvd_clearLow (Word.sub_lt _ _) env.pageSize_word env.pageSize_pow
  have hP : env.pageSize ∣ 2 ^ 64 :=
    Word.two_pow_dvd env.pageSize_pow ⟨64, rfl⟩ env.pageSize_word.le
  exact (Nat.dvd_mod_iff hP).mpr (Dvd.dvd.mul_right hc _)

theorem chunkSizeFor_spec (hn : n ≤ env.taskSize) : n ≤ chunkSizeFor env n ∧
    0 < chunkSizeFor env n ∧ chunkSizeFor env n ≤ max memoryCreationSize n + env.pageSize ∧
    env.pageSize ∣ chunkSizeFor env n := by
  have hP := env.pageSize_pos
  have hPl := env.pageSize_lt
  have ht := env.taskSize_le
  have hm : memoryCreationSize = 2 ^ 20 := by decide
  have hX : Word.sub (Word.add (max memoryCreationSize n) env.pageSize) 1 =
      max memoryCreationSize n + env.pageSize - 1 := by
    rw [Word.add_eq (by omega), Word.sub_eq (by omega) (by omega)]
  have hXlt : max memoryCreationSize n + env.pageSize - 1 < 2 ^ 64 := by omega
  have h1 := Word.clearLow_le hXlt env.pageSize_word env.pageSize_pow
  have h2 := Word.lt_clearLow_add hXlt env.pageSize_word env.pageSize_pow
  have h3 := Word.dvd_clearLow hXlt env.pageSize_word env.pageSize_pow
  rw [chunkSizeFor, hX]
  exact ⟨by omega, by omega, by omega, h3⟩

theorem createdSize_spec (hn : n ≤ env.taskSize) (hg : createdSize env n r ≤ env.taskSize) :
    ∃ num, numChunksFor (chunkSizeFor env n) r.userSize = num ∧ 1 ≤ num ∧
      createdSize env n r = chunkSizeFor env n * num ∧ num ≤ chunkSizeFor env n * num := by
  have ht := env.taskSize_le
  obtain ⟨-, h0, h2, -⟩ := chunkSizeFor_spec hn
  have hm : memoryCreationSize = 2 ^ 20 := by decide
  have hPl := env.pageSize_lt
  unfold createdSize at hg ⊢
  set c := chunkSizeFor env n
  have hs : Word.sub c 1 = c - 1 := Word.sub_eq (by omega) (by omega)
  have hs' : Word.sub sizeMax (c - 1) = sizeMax - (c - 1) :=
    Word.sub_eq (by decide) (by unfold sizeMax; omega)
  unfold numChunksFor chunksOverflow at hg ⊢
  rw [hs, hs'] at hg ⊢
  split at hg
  · exfalso
    have : c * sizeMax = (c - 1) * 2 ^ 64 + (2 ^ 64 - c) := by unfold sizeMax; omega
    rw [Word.mul, this, Nat.mul_add_mod_self_right, Nat.mod_eq_of_lt (by omega)] at hg
    omega
  · next hov =>
    rw [if_neg hov]
    have hle : r.userSize + (c - 1) < 2 ^ 64 := by
      have : ¬ sizeMax - (c - 1) < r.userSize := fun h => hov (decide_eq_true h)
      unfold sizeMax at this
      omega
    split
    · exact ⟨1, rfl, le_rfl, Word.mul_eq (by omega), by omega⟩
    · next h0 =>
      have hcpos : 0 < c := by omega
      have hnum : 1 ≤ (r.userSize + (c - 1)) / c := (Nat.one_le_div_iff hcpos).mpr (by omega)
      have hmul := Nat.mul_div_le (r.userSize + (c - 1)) c
      rw [Word.add_eq hle]
      exact ⟨_, rfl, hnum, Word.mul_eq (by omega), Nat.le_mul_of_pos_left _ hcpos⟩

theorem Env.dvd_memoryCreationSize (env : Env) : env.pageSize ∣ memoryCreationSize :=
  Word.two_pow_dvd env.pageSize_pow ⟨20, rfl⟩ env.pageSize_lt.le

theorem chunkSizeFor_of_dvd (hd : env.pageSize ∣ n) (hlt : n < 2 ^ 64) :
    chunkSizeFor env n = max memoryCreationSize n := by
  have hP := env.pageSize_pos
  have hPl := env.pageSize_lt
  have hm : memoryCreationSize = 2 ^ 20 := by decide
  have hle : n + env.pageSize ≤ 2 ^ 64 :=
    Env.le_of_lt_add (Nat.dvd_add hd dvd_rfl)
      (Word.two_pow_dvd env.pageSize_pow ⟨64, rfl⟩ env.pageSize_word.le) (by omega)
  set m := max memoryCreationSize n with hmax
  have hdm : env.pageSize ∣ m := by
    rcases max_choice memoryCreationSize n with h | h <;> rw [hmax, h]
    exacts [env.dvd_memoryCreationSize, hd]
  have hX : Word.sub (Word.add m env.pageSize) 1 = m + env.pageSize - 1 := by
    unfold Word.sub Word.add
    omega
  rw [chunkSizeFor, ← hmax, hX, Word.clearLow_eq (by omega) env.pageSize_word env.pageSize_pow]
  exact Env.roundUp_of_dvd hdm

theorem createdSize_eq (hd : env.pageSize ∣ n) (hlt : n < 2 ^ 64) (hus : r.userSize ≤ n)
    (hov : chunksOverflow (chunkSizeFor env n) r.userSize = false) :
    createdSize env n r = max memoryCreationSize n := by
  have hm : memoryCreationSize = 2 ^ 20 := by decide
  have hc := chunkSizeFor_of_dvd hd hlt
  set m := max memoryCreationSize n with hmax
  rw [hc] at hov
  have hs : Word.sub m 1 = m - 1 := Word.sub_eq (by omega) (by omega)
  have hnum : numChunksFor m r.userSize = 1 := by
    rw [numChunksFor, hov, if_neg (by decide)]
    have hfit : r.userSize + (m - 1) < 2 ^ 64 := by
      have hno : ¬ Word.sub sizeMax (Word.sub m 1) < r.userSize := of_decide_eq_false hov
      rw [hs, Word.sub_eq (by decide) (by unfold sizeMax; omega)] at hno
      unfold sizeMax at hno
      omega
    split
    · rfl
    · next h0 =>
      rw [hs, Word.add_eq hfit]
      exact Nat.div_eq_of_lt_le (by omega) (by omega)
  rw [createdSize, hc, hnum, Word.mul_eq (by omega), Nat.mul_one]

theorem le_createdSize (hn : n ≤ env.taskSize) (hg : createdSize env n r ≤ env.taskSize) :
    n ≤ createdSize env n r := by
  obtain ⟨num, -, h1, he, -⟩ := createdSize_spec hn hg
  rw [he]
  exact (chunkSizeFor_spec hn).1.trans (Nat.le_mul_of_pos_right _ h1)

theorem kB_createdSize (hP : 1024 ∣ env.pageSize) (hn : n ≤ env.taskSize)
    (hg : createdSize env n r ≤ env.taskSize) :
    Word.mul (kB (chunkSizeFor env n)) (numChunksFor (chunkSizeFor env n) r.userSize) =
      kB (createdSize env n r) := by
  obtain ⟨num, hnum, h1, he, hle⟩ := createdSize_spec hn hg
  obtain ⟨-, h0, h2, hd⟩ := chunkSizeFor_spec hn
  have ht := env.taskSize_le
  have hm : memoryCreationSize = 2 ^ 20 := by decide
  have hPl := env.pageSize_lt
  have hk := kB_of_dvd (hP.trans hd) (by omega)
  rw [he] at hg
  have hk' := kB_of_dvd ((hP.trans hd).mul_right num) (by omega)
  rw [hnum, he]
  have hmul : kB (chunkSizeFor env n) * num = kB (chunkSizeFor env n * num) := by
    refine Nat.eq_of_mul_eq_mul_right (show 0 < 1024 by decide) ?_
    rw [Nat.mul_right_comm, hk, hk']
  have := kB_le (chunkSizeFor env n * num)
  rw [Word.mul_eq (by omega), hmul]

theorem createChunk_ensures (hA : r.fail = .failEnv → s.cfg.mallocFailexit = true →
      A (.abort (.mmapFailed (createdSize env n r)))) :
    Ensures env ok (createChunkBy env len (chunkSizeFor env n) r)
      (Created env (len (createdSize env n r)) s) A s := by
  have rest : ∀ (a : ℕ) (t : State), Created env (len (createdSize env n r)) s a t →
      Wp (do
        let s ← get
        if a = 0 ∧ s.cfg.protectFree ≠ 0 then
          let address ← retryCreateBy env len (kB (chunkSizeFor env n)) (createdSize env n r)
            (2 * s.slots.length + 1)
          if address = 0 ∧ r.fail = .failEnv then
            pageCreateBy env len (createdSize env n r) s.cfg.mallocFailexit
          else pure address
        else pure a : M ℕ) (Created env (len (createdSize env n r)) s)
        (fun e _ => Pre env ok s → A e) t := by
    intro a t hc
    refine Wp.bind_iff.mpr (Wp.get_iff.mpr (Wp.ite (fun h => ?_) fun _ => hc))
    cases hc with
    | some _ ha => exact absurd h.1 ha
    | none ht ha =>
      have hfuel : t.evictable < 2 * t.slots.length + 1 := Nat.lt_succ_of_le t.evictable_le
      refine Wp.seq (Ensures.from_inners (Cedes.inners ht) (retryCreate_ensures (kB_le _).le _ hfuel)) ?_
      intro b u hu
      refine Wp.ite (fun hb' => ?_) fun _ => hu.of_cedes ht
      cases hu with
      | some _ hb => exact absurd hb'.1 hb
      | none hu _ =>
        have htu : Cedes env s _ := ht.trans hu
        refine Ensures.from_inners (Cedes.inners htu) ((pageCreate_ensures fun hx => ?_).post
          fun _ _ h => h.of_cedes htu)
        have hb : Bases env ok s _ := Cedes.bases ht
        exact hA hb'.2 ((Bases.same hb).cfg ▸ hx)
  unfold createChunkBy
  dsimp only
  split
  · exact rest 0 s (.none .refl rfl)
  · exact Wp.seq (pageCreate_ensures nofun) rest

section Attempts

/-- The eviction that the bound on the memory asks for before a new chunk. -/
def evictFor (env : Env) (n : ℕ) : M Unit := do
  let s ← get
  if 0 < s.cfg.maxAlloc ∧ s.cfg.maxAlloc < s.book.sumAllocatedMem + kB (chunkSizeFor env n) then
    let _ ← reduceProtectedMemory env (kB (chunkSizeFor env n))

theorem evictFor_of_reduce {b : Bool}
    (hc : 0 < s.cfg.maxAlloc ∧ s.cfg.maxAlloc < s.book.sumAllocatedMem + kB (chunkSizeFor env n))
    (hr : reduceProtectedMemory env (kB (chunkSizeFor env n)) s = .ok b s') :
    evictFor env n s = .ok ⟨⟩ s' := by
  change (if 0 < s.cfg.maxAlloc ∧ s.cfg.maxAlloc < s.book.sumAllocatedMem + kB (chunkSizeFor env n)
    then (do let _ ← reduceProtectedMemory env (kB (chunkSizeFor env n))) else pure ⟨⟩ : M Unit) s = _
  rw [if_pos hc]
  change EStateM.bind _ _ s = _
  unfold EStateM.bind
  rw [hr]
  rfl

theorem evictFor_of_not
    (hc : ¬ (0 < s.cfg.maxAlloc ∧ s.cfg.maxAlloc < s.book.sumAllocatedMem +
      kB (chunkSizeFor env n))) : evictFor env n s = .ok ⟨⟩ s := by
  change (if 0 < s.cfg.maxAlloc ∧ s.cfg.maxAlloc < s.book.sumAllocatedMem + kB (chunkSizeFor env n)
    then (do let _ ← reduceProtectedMemory env (kB (chunkSizeFor env n))) else pure ⟨⟩ : M Unit) s = _
  rw [if_neg hc]
  rfl

def NoChunk (env : Env) (len : ℕ → ℕ) (n : ℕ) (r : Request) (s : State) : Prop :=
  ∃ u v, evictFor env n s = .ok ⟨⟩ u ∧ createChunkBy env len (chunkSizeFor env n) r u = .ok 0 v

theorem noChunk_iff (he : evictFor env n s = .ok ⟨⟩ s')
    (hc : createChunkBy env len (chunkSizeFor env n) r s' = .ok a s'') :
    NoChunk env len n r s ↔ a = 0 := by
  constructor
  · rintro ⟨u, v, hu, hv⟩
    rw [he] at hu
    cases hu
    rw [hc] at hv
    cases hv
    rfl
  · rintro rfl
    exact ⟨s', s'', he, hc⟩

theorem noChunk_stops {e : Stop} (he : evictFor env n s = .ok ⟨⟩ s')
    (hc : createChunkBy env len (chunkSizeFor env n) r s' = .error e s'') : ¬ NoChunk env len n r s := by
  rintro ⟨u, v, hu, hv⟩
  rw [he] at hu
  cases hu
  rw [hc] at hv
  cases hv

end Attempts

/-- `mmap` gets the size itself, or a length that no process is granted. -/
def Backs (env : Env) (len : ℕ → ℕ) (n : ℕ) : Prop :=
  len n = n ∨ len n = 0 ∨ env.taskSize < len n

theorem backs_id : Backs env id n := Or.inl rfl

theorem Backs.created {t : State} (h : Backs env len n) (hc : Created env (len n) s a t) :
    Created env n s a t := by
  cases hc with
  | none hc ha => exact .none hc ha
  | @some t hc ha hg =>
    have hpos := hg.size_pos
    have hle := hg.le
    have hround := env.le_roundUp (len n)
    rcases h with h | h | h
    · rw [h] at hg ⊢
      exact .some hc ha hg
    · omega
    · omega

/-- What `createMore` leaves of the empty slot `i`: a free one, if there was memory for it. -/
def Filled (env : Env) (len : ℕ → ℕ) (n : ℕ) (r : Request) (i : ℕ) (s t : State) : Prop :=
  ∃ sl, t.slots[i]? = some sl ∧
    (sl.state = .empty ∧ sl.internalSize = 0 ∧ NoChunk env len n r s ∧
      Bases env (fun _ => False) s t ∨
    sl.state = .free ∧ sl.internalSize = createdSize env n r ∧ 0 < createdSize env n r ∧
      createdSize env n r ≤ env.taskSize ∧ ¬ NoChunk env len n r s)

theorem State.gained_slot (hi : s.slots[i]? = some sl) (k : ℕ) :
    (s.gained env i sl a n).slots[k]? = if i = k then
      some { sl with internalAddress := a, internalSize := n, state := .free }
      else s.slots[k]? :=
  State.getElem?_putSlot (s := s.created env a n) hi

theorem createMore_ensures {e : Slot} (hi : s.slots[i]? = some sl) (hs : sl.state = .empty)
    (h0 : sl.internalSize = 0) (hj : s.slots[j]? = some e) (he : e.state = .empty) (hij : i ≠ j)
    (hlen : Backs env len (createdSize env n r)) (hok : ok n)
    (hA : ¬ NoChunk env len n r s → r.fail = .failEnv → s.cfg.mallocFailexit = true →
      A (.abort (.mmapFailed (createdSize env n r)))) :
    Ensures env ok (createMoreBy env len n r (some i) (some j))
      (fun v t => v = (i, some j) ∧ Bases env ok s t ∧ Filled env len n r i s t ∧
        t.slots[j]? = some e) A s := by
  have hne : ∀ {sl : Slot}, sl.state = .empty → ¬ sl.IsProtected := fun h h' => h'.ne_empty h
  have rest : ∀ t, Cedes env s t → evictFor env n s = .ok ⟨⟩ t → Wp (do
      let address ← createChunkBy env len (chunkSizeFor env n) r
      modifySlot env i fun sl => { sl with internalAddress := address }
      if address ≠ 0 then
        modifyBook fun b =>
          { b with
            sumAllocatedMem := b.sumAllocatedMem + Word.mul (kB (chunkSizeFor env n))
              (numChunksFor (chunkSizeFor env n) r.userSize)
            sumTotalAllocatedMem := b.sumTotalAllocatedMem + Word.mul (kB (chunkSizeFor env n))
              (numChunksFor (chunkSizeFor env n) r.userSize)
            unUsedSlots := Word.sub b.unUsedSlots 1 }
        modifySlot env i fun sl =>
          { sl with internalSize := createdSize env n r, state := .free }
      pure (i, some j) : M (ℕ × Option ℕ))
      (fun v t => v = (i, some j) ∧ Bases env ok s t ∧ Filled env len n r i s t ∧ t.slots[j]? = some e)
      (fun e _ => Pre env ok s → A e) t := by
    intro t ht hev
    have hchunk : Wp (createChunkBy env len (chunkSizeFor env n) r) (Created env (createdSize env n r) t)
        (fun e _ => Pre env ok s → A e) t := by
      have hcfg := (Bases.same (Cedes.bases ht : Bases env ok s t)).cfg
      have hens : Ensures env ok (createChunkBy env len (chunkSizeFor env n) r)
          (Created env (len (createdSize env n r)) t) (fun e => ¬ NoChunk env len n r s → A e) t :=
        createChunk_ensures fun hf hx hno => hA hno hf (hcfg ▸ hx)
      refine Wp.mono (Wp.and Wp.self hens) (fun _ _ h => hlen.created h.2) ?_
      rintro e v ⟨he, hst⟩ hp
      exact hst (hp.inners (Cedes.inners ht)) fun hno => noChunk_stops hev he hno
    refine Wp.seq (Wp.keep hchunk) ?_
    rintro a u ⟨hcr, hu⟩
    have hno := noChunk_iff hev hcr
    cases hu with
    | none hu ha =>
      have hsu : Cedes env s u := ht.trans hu
      have hiu := Cedes.slot hsu hi (hne hs)
      subst ha
      refine Wp.bind_iff.mpr (modifySlot_wp hiu (Wp.ite (fun h => absurd rfl h) fun _ => ?_)
        fun hO hp => absurd (hp.inners (Cedes.inners hsu)).ready.open hO)
      refine ⟨rfl, (Cedes.bases hsu).tail (.clear hiu hs),
        ⟨{ sl with internalAddress := 0 }, ?_, Or.inl ⟨hs, h0,
        hno.mpr rfl, (Cedes.bases hsu).tail (.clear hiu hs)⟩⟩, ?_⟩
      · rw [State.getElem?_putSlot hiu, if_pos rfl]
      · rw [State.getElem?_putSlot hiu, if_neg hij, Cedes.slot hsu hj (hne he)]
    | @some u hu ha hg =>
      have hsu : Cedes env s u := ht.trans hu
      have hiu := Cedes.slot hsu hi (hne hs)
      have hle := hg.le
      rw [Env.roundUp_of_dvd dvd_createdSize] at hle
      have hbase : ∀ b : Book, Gained env u n (createdSize env n r) b → Base env ok u
          { u.gained env i sl a (createdSize env n r) with book := b } :=
        .gain hiu hs hok dvd_createdSize hg
      have hopen : Pre env ok s → Open env (u.created env a (createdSize env n r)) := fun hp => by
        have := (hp.bases ((Cedes.bases hsu).tail (hbase
          { u.book with
            unUsedSlots := Word.sub u.book.unUsedSlots 1
            sumAllocatedMem := u.book.sumAllocatedMem + kB (createdSize env n r) }
          ⟨rfl, rfl, rfl, fun _ _ => rfl⟩))).ready.open
        exact Open.putSlot.mp (Open.withBook.mp this)
      set x : Slot := { sl with internalAddress := a } with hx
      set v := u.created env a (createdSize env n r) with hv
      have hix : (v.putSlot i x).slots[i]? = some x :=
        (State.getElem?_putSlot (s := v) hiu).trans (if_pos rfl)
      refine Wp.bind_iff.mpr (modifySlot_wp (s := v) hiu (Wp.ite (fun _ => ?_) fun h => absurd ha h)
        fun hO hp => absurd (hopen hp) hO)
      refine Wp.bind_iff.mpr (modifyBook_wp.mpr (Wp.bind_iff.mpr (modifySlot_wp
        (s := { v.putSlot i x with book := _ }) hix ?_ fun hO hp =>
          absurd (Open.withBook.mpr (Open.putSlot.mpr (hopen hp))) hO)))
      have hslot := fun k => @State.gained_slot env u a i (createdSize env n r) sl hiu k
      rw [State.putSlot_withBook, State.putSlot_putSlot (s := v) (v := x) hiu rfl]
      refine ⟨rfl, (Cedes.bases hsu).tail (hbase _ ⟨?_, ?_, ?_, fun hP hn => ?_⟩),
        ⟨_, (hslot i).trans (if_pos rfl), Or.inr ⟨rfl, rfl, hg.size_pos, by omega,
          fun h => ha (hno.mp h)⟩⟩, ?_⟩
      · rw [State.putSlot_book]; rfl
      · rw [State.putSlot_book]; rfl
      · rw [State.putSlot_book]; rfl
      · rw [State.putSlot_book, ← kB_createdSize (r := r) hP hn (by omega)]; rfl
      · exact ((hslot j).trans (if_neg hij)).trans (Cedes.slot hsu hj (hne he))
  refine Ensures.get_bind (Wp.ite (fun hc => ?_) fun hc => rest s .refl (evictFor_of_not hc))
  exact Wp.seq (Wp.keep (reduceProtectedMemory_ensures (kB_le _).le)) fun _ t ht =>
    rest t (.single (.sweep ht.2.1)) (evictFor_of_reduce hc ht.1)

end Duma

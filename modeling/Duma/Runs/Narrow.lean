import Duma.Runs.Blocks

/-! # Mappings shorter than their chunks

For sizes below 2^31 the conversion to `int` changes nothing. From there on `mmap` fails or maps
less than was asked for.
-/

namespace Duma

variable {env : Env} {settings : Settings} {s t : State} {w : World} {r : Request} {p size a : ℕ}
  {exit : Bool}

section Narrowing

theorem intSize_eq : intSize size =
    size % 2 ^ 32 + if 2 ^ 31 ≤ size % 2 ^ 32 then 2 ^ 64 - 2 ^ 32 else 0 := by
  have hle : size % 2 ^ 32 < 2 ^ 64 := by omega
  unfold intSize
  simp only [BitVec.toNat_signExtend, BitVec.toNat_setWidth, BitVec.toNat_ofNat,
    Nat.mod_eq_of_lt hle, BitVec.msb_eq_decide, decide_eq_true_eq]

theorem intSize_of_lt (h : size < 2 ^ 31) : intSize size = size := by
  rw [intSize_eq, if_neg (by omega)]
  omega

/-- A larger size turns into a negative length or loses its upper bits. -/
theorem intSize_of_le (h : 2 ^ 31 ≤ size) :
    2 ^ 63 ≤ intSize size ∨ intSize size + 2 ^ 31 ≤ size := by
  rw [intSize_eq]
  split
  · exact Or.inl (by omega)
  · exact Or.inr (by omega)

/-- Up to the length of an `unsigned int` nothing is mapped that is too short. -/
theorem backs_intSize (h : size < 2 ^ 32) : Backs env intSize size := by
  have ht := env.taskSize_le
  unfold Backs
  rw [intSize_eq]
  split
  · omega
  · omega

theorem pageCreateInt_post (h : pageCreateInt env size exit s = .ok a t) (h0 : a ≠ 0) :
    s.Granted env a (intSize size) ∧ t = s.afterMmap.created env a (intSize size) := by
  have : Post (pageCreateInt env size exit) (fun a t => a ≠ 0 →
      s.Granted env a (intSize size) ∧ t = s.afterMmap.created env a (intSize size)) s := by
    exact pageCreateBy_wp (fun _ _ hg _ _ => ⟨hg, rfl⟩) (fun _ _ h0 => absurd rfl h0)
      fun _ _ => trivial
  exact this.returns h h0

/-- All of `[a, a + size)` has become memory of the process. -/
def Maps (env : Env) (s t : State) (a size : ℕ) : Prop :=
  ∀ x, a ≤ x → x < a + size → s.page env x = .unmapped ∧ t.page env x = .readWrite

theorem pageCreateInt_maps (h : pageCreateInt env size exit s = .ok a t) (h0 : a ≠ 0) :
    Maps env s t a size ↔ size < 2 ^ 31 := by
  obtain ⟨hg, rfl⟩ := pageCreateInt_post h h0
  have hpage : ∀ x, (s.afterMmap.created env a (intSize size)).page env x =
      if a ≤ x ∧ x < a + env.roundUp (intSize size) then .readWrite else s.page env x :=
    fun _ => State.created_page hg.dvd
  have hround := env.le_roundUp (intSize size)
  constructor
  · intro hm
    by_contra hlt
    have hle := hg.le
    have htask := env.taskSize_le
    have hup := env.roundUp_lt (intSize size)
    have hP := env.pageSize_lt
    have hlost := (intSize_of_le (not_lt.mp hlt)).resolve_left (by omega)
    obtain ⟨hun, hrw⟩ := hm (a + env.roundUp (intSize size)) (by omega) (by omega)
    rw [hpage, if_neg (by omega), hun] at hrw
    cases hrw
  · intro hlt x h1 h2
    have hsize := intSize_of_lt hlt
    have hx : x < a + env.roundUp (intSize size) := by omega
    exact ⟨hg.fresh x h1 hx, by rw [hpage, if_pos ⟨h1, hx⟩]⟩

end Narrowing

section Backed

/-- Every recorded region is memory of the process. -/
def Backed (env : Env) (t : State) : Prop :=
  ∀ ⦃i : ℕ⦄ ⦃sl : Slot⦄ ⦃x : ℕ⦄, t.slots[i]? = some sl → sl.Owns x → t.page env x ≠ .unmapped

theorem Core.backed (h : Core env s) : Backed env s := fun _ _ _ hi hx =>
  h.mapped (h.held_of_owns (h.owns hi hx))

/-- The size of the chunk in which the slot list grows, if it takes one. -/
def State.listChunk (env : Env) (s : State) : ℕ :=
  createdSize env (s.sizeFor env (s.listRequest env)) (s.listRequest env)

theorem Tidy.backsList (h : Tidy env s) (hc : s.listChunk env < 2 ^ 32) :
    s.BacksList env intSize := by
  unfold State.listChunk at hc
  rw [h.sizeFor_list] at hc
  exact backs_intSize hc

/-- A list that fits into one mapping grows in a chunk that does not wrap. -/
theorem Safe.backsList (hs : Safe env s) (hl : s.allocListSize < 2 ^ 31) :
    s.BacksList env intSize := by
  obtain ⟨hS, hus, -⟩ := hs.core.listServed
  have hd := hS.pos_dvd.2
  have hPl := env.pageSize_lt
  have hm : memoryCreationSize = 2 ^ 20 := by decide
  have hneed : s.listNeed env = s.allocListSize + 2 * env.pageSize := by
    have hP := env.pageSize_pos
    have h1 : Sizes env 1 (s.listRequest env).userSize := ⟨⟨0, rfl⟩, by omega, by omega⟩
    rw [State.listNeed, h1.internalSizeFor_eq, Env.need, hus,
      Env.roundUp_of_dvd (Nat.dvd_add hs.core.listServed.2.2 dvd_rfl)]
    omega
  have hov : chunksOverflow (chunkSizeFor env (s.listNeed env)) (s.listRequest env).userSize =
      false := by
    rw [chunkSizeFor_of_dvd hd (by omega)]
    have h1 : Word.sub (max memoryCreationSize (s.listNeed env)) 1 =
        max memoryCreationSize (s.listNeed env) - 1 := Word.sub_eq (by omega) (by omega)
    apply decide_eq_false
    rw [h1, Word.sub_eq (by decide) (by unfold sizeMax; omega)]
    unfold sizeMax
    omega
  apply backs_intSize
  rw [createdSize_eq hd (by omega) (by omega) hov]
  omega

/-- The chunks that an allocation may create are below 2^31 bytes. -/
def State.Narrow (env : Env) (s : State) (r : Request) : Prop :=
  createdSize env (s.sizeFor env r) r < 2 ^ 31 ∧ s.listChunk env < 2 ^ 31

instance : Decidable (s.Narrow env r) := inferInstanceAs (Decidable (_ ∧ _))

/-- The region of the slot that the block at `p` was handed out in is memory of the process. -/
def BlockBacked (env : Env) (p : ℕ) (t : State) : Prop :=
  ∃ (i : ℕ) (sl : Slot), t.slots[i]? = some sl ∧ sl.IsUser ∧ sl.userAddress = p ∧
    ∀ x, sl.Owns x → t.page env x ≠ .unmapped

/-- `Page_Create` maps all that it is asked for up to the length of an `int`, and no further; the
chunks of such lengths back all that the slots record. -/
theorem pageCreateInt_backs_iff :
    (∀ (size : ℕ) (exitonfail : Bool) (s t : State) (a : ℕ),
      pageCreateInt env size exitonfail s = .ok a t → a ≠ 0 →
        (Maps env s t a size ↔ size < 2 ^ 31)) ∧
    ∀ (settings : Settings) (w : World) (r : Request) (p : ℕ) (t : State),
      settings.Proper env → Run env settings w → r.Proper env w.st →
        r.allocator.type ≠ .internal → w.st.Narrow env r → allocateInt env r w.st = .ok p t →
          Backed env t ∧ (p ≠ 0 → r.userSize ≠ 0 → BlockBacked env p t) := by
  refine ⟨fun size exit s t a => pageCreateInt_maps, fun settings w r p t hset hw hr hu hn he => ?_⟩
  have hs := hw.safe hset
  have hserved := (allocateBy_post ⟨hs.tidy.backsList (hn.2.trans (by decide)),
    fun _ _ _ => backs_intSize (hn.1.trans (by decide))⟩ hu hs.tidy).returns he
  constructor
  · rcases hserved.outcome hs hr.serves hu with ⟨hst, -, -⟩ | ⟨i, new, hP⟩
    · exact hst.core.backed
    · exact hP.safe.core.backed
  · intro hp h0
    obtain ⟨i, new, hP⟩ := hserved.provided hs hr.serves hu hp (Or.inl h0)
    exact ⟨i, new, hP.slot, hP.user, hP.addr, fun x hx => hP.safe.core.backed hP.slot hx⟩

theorem pageCreateInt_backs_sample : ∃ a t w p u,
    pageCreateInt Env.sample 1024 false (State.pristine Env.sample) = .ok a t ∧
      Maps Env.sample (State.pristine Env.sample) t a 1024 ∧
      Run Env.sample (Settings.sample 0 (-1)) w ∧
      allocateInt Env.sample (w.st.tls.mallocRequest 100 Site.unknown) w.st = .ok p u ∧
      Backed Env.sample u ∧ BlockBacked Env.sample p u := by
  obtain ⟨a, t, ha, ha0⟩ := exists_yields (m := pageCreateInt Env.sample 1024 false)
    (s := State.pristine Env.sample) (q := fun a _ => decide (a ≠ 0)) (by decide +kernel)
  obtain ⟨w, hw, hp⟩ := exists_run (Settings.sample 0 (-1)) [] (fun w => decide (
    (w.st.tls.mallocRequest 100 Site.unknown).Proper Env.sample w.st ∧
    w.st.Narrow Env.sample (w.st.tls.mallocRequest 100 Site.unknown) ∧
    yields (allocateInt Env.sample (w.st.tls.mallocRequest 100 Site.unknown)) w.st
      (fun p _ => decide (p ≠ 0)) = true)) (by decide +kernel)
  obtain ⟨hr, hn, hy⟩ := of_decide_eq_true hp
  obtain ⟨p, u, he, hp0⟩ := exists_yields hy
  obtain ⟨hm, hb⟩ := @pageCreateInt_backs_iff Env.sample
  have hback := hb _ w _ p u (Settings.sample_proper _ _) hw hr nofun hn he
  exact ⟨a, t, w, p, u, ha, (hm 1024 false _ t a ha (of_decide_eq_true ha0)).mpr (by decide), hw, he,
    hback.1, hback.2 (of_decide_eq_true hp0) (by decide : (100 : ℕ) ≠ 0)⟩

/-- 1024 bytes are mapped for a request of 2^32 and 1024. -/
theorem pageCreateInt_backs_fails : ¬ ∀ (env : Env) (size : ℕ) (exitonfail : Bool) (s t : State)
    (a : ℕ), size < 2 ^ 64 → pageCreateInt env size exitonfail s = .ok a t → a ≠ 0 →
      Maps env s t a size := by
  intro h
  obtain ⟨a, t, ha, ha0⟩ := exists_yields (m := pageCreateInt Env.sample (2 ^ 32 + 1024) false)
    (s := State.pristine Env.sample) (q := fun a _ => decide (a ≠ 0)) (by decide +kernel)
  have h0 := of_decide_eq_true ha0
  exact absurd ((pageCreateInt_maps ha h0).mp (h _ _ _ _ _ _ (by decide) ha h0)) (by decide)

end Backed

end Duma

import Duma.Refine.Grow
import Duma.Model.Init

/-! # Construction of the first slot list

`_duma_init` leaves a list of one page with two slots in use: the list's own and the pool's, which
has the rest of the first chunk.
-/

namespace Duma

variable {env : Env} {s t : State} {a b : ℕ}

namespace Env

theorem arenaSize_eq : env.arenaSize = 2 ^ 20 := by
  have hP := env.pageSize_pos
  have hPl := env.pageSize_lt
  have hm : max memoryCreationSize env.pageSize = 2 ^ 20 := by
    have : memoryCreationSize = 2 ^ 20 := by decide
    omega
  have hX : Word.sub (Word.add (2 ^ 20) env.pageSize) 1 = 2 ^ 20 + env.pageSize - 1 := by
    rw [Word.add_eq (by omega), Word.sub_eq (by omega) (by omega)]
  have hd : env.pageSize ∣ 2 ^ 20 := Word.two_pow_dvd env.pageSize_pow ⟨20, rfl⟩ hPl.le
  obtain ⟨c, hc⟩ := hd
  rw [arenaSize, hm, hX, Word.clearLow_eq (by omega) env.pageSize_word env.pageSize_pow, hc,
    Nat.add_sub_assoc hP, Nat.mul_add_div hP, Nat.div_eq_of_lt (by omega), Nat.add_zero,
    Nat.mul_comm]

theorem dvd_arenaSize : env.pageSize ∣ env.arenaSize := by
  rw [arenaSize_eq]
  exact Word.two_pow_dvd env.pageSize_pow ⟨20, rfl⟩ env.pageSize_lt.le

theorem pageSize_lt_arenaSize : env.pageSize < env.arenaSize := by
  rw [arenaSize_eq]
  exact env.pageSize_lt

theorem two_lt_slotsPerPage : 2 < env.slotsPerPage := by
  have := env.pageSize_ge
  unfold slotsPerPage sizeofSlot
  omega

end Env

def firstSlots (env : Env) (a : ℕ) : List Slot :=
  Slot.ofList a env.pageSize ::
    Slot.ofPool (a + env.pageSize) (env.arenaSize - env.pageSize) ::
      List.replicate (env.slotsPerPage - 2) Slot.zero

structure Constructed (env : Env) (s : State) : Prop where
  slots : s.slots = firstSlots env s.allocList
  cfg : s.cfg = Config.initial
  tls : s.tls = Tls.initial env
  size : s.allocListSize = env.pageSize
  initDone : s.initDone = false
  unUsed : s.book.unUsedSlots = env.slotsPerPage - 2
  allocated : s.book.sumAllocatedMem = 0
  «protected» : s.book.sumProtectedMem = 0
  semDepth : s.book.semDepth = 0
  list_pos : 0 < s.allocList
  null_pos : 0 < s.nullBlock
  null_dvd : env.pageSize ∣ s.nullBlock
  dvd : env.pageSize ∣ s.allocList
  le : s.allocList + env.arenaSize ≤ env.taskSize
  held : ∀ x, held s.trace x ↔
    s.allocList ≤ x ∧ x < s.allocList + env.arenaSize ∨ s.InNull env x
  apart : ∀ x, s.allocList ≤ x → x < s.allocList + env.arenaSize → ¬ s.InNull env x
  mapped : ∀ x, Duma.held s.trace x → s.page env x ≠ .unmapped
  pool : ∀ x, s.allocList + env.pageSize ≤ x → x < s.allocList + env.arenaSize →
    s.page env x = .noAccess
  /-- the null block, the chunk and the two slots, newest first -/
  trace : ∃ n, s.trace = [.state 1 .empty .free, .state 0 .empty .inUse,
    .create s.allocList env.arenaSize, .create s.nullBlock n]

namespace Constructed

variable (h : Constructed env s)
include h

theorem slot {i : ℕ} {sl : Slot} (hi : s.slots[i]? = some sl) :
    i = 0 ∧ sl = Slot.ofList s.allocList env.pageSize ∨
      i = 1 ∧ sl = Slot.ofPool (s.allocList + env.pageSize) (env.arenaSize - env.pageSize) ∨
      2 ≤ i ∧ sl = Slot.zero := by
  rw [h.slots, firstSlots] at hi
  match i with
  | 0 => exact Or.inl ⟨rfl, by simpa using hi.symm⟩
  | 1 => exact Or.inr (Or.inl ⟨rfl, by simpa using hi.symm⟩)
  | i + 2 =>
    refine Or.inr (Or.inr ⟨by omega, ?_⟩)
    simp only [List.getElem?_cons_succ, List.getElem?_replicate] at hi
    split at hi
    · simpa using hi.symm
    · cases hi

theorem owns {i x : ℕ} : s.Owns i x ↔
    i = 0 ∧ s.allocList ≤ x ∧ x < s.allocList + env.pageSize ∨
      i = 1 ∧ s.allocList + env.pageSize ≤ x ∧ x < s.allocList + env.arenaSize := by
  have hlt := env.pageSize_lt_arenaSize
  constructor
  · rintro ⟨sl, hi, hne, h1, h2⟩
    rcases h.slot hi with ⟨rfl, rfl⟩ | ⟨rfl, rfl⟩ | ⟨-, rfl⟩
    · exact Or.inl ⟨rfl, h1, h2⟩
    · simp only [Slot.ofPool, Slot.ofList] at h1 h2
      exact Or.inr ⟨rfl, h1, by omega⟩
    · exact absurd rfl hne
  · rintro (⟨rfl, h1, h2⟩ | ⟨rfl, h1, h2⟩)
    · exact ⟨_, by rw [h.slots]; rfl, by simp [Slot.ofList], h1, h2⟩
    · refine ⟨_, by rw [h.slots]; rfl, by simp [Slot.ofPool], h1, ?_⟩
      simp only [Slot.ofPool, Slot.ofList]
      omega

theorem core : Core env s := by
  have hlt := env.pageSize_lt_arenaSize
  have hP := env.pageSize_pos
  have hle := h.le
  have hd := h.dvd
  have hpos := h.list_pos
  refine ⟨fun i sl hi => ?_, ⟨fun i j x hi hj => ?_, fun x => ?_⟩, h.mapped, fun x hx =>
    (h.held x).mpr (Or.inr hx), h.null_pos, 0, _, by rw [h.slots]; rfl,
    ⟨rfl, rfl, rfl, h.size.symm⟩⟩
  · rcases h.slot hi with ⟨-, rfl⟩ | ⟨-, rfl⟩ | ⟨-, rfl⟩
    · refine .inUse rfl ⟨hpos, hd, dvd_rfl, hP, ?_⟩ (.list rfl rfl rfl rfl) fun _ =>
        ⟨rfl, rfl, hP, dvd_rfl⟩
      simp only [Slot.ofList]
      omega
    · refine .free rfl ⟨?_, Nat.dvd_add hd dvd_rfl, Nat.dvd_sub env.dvd_arenaSize dvd_rfl, ?_, ?_⟩
        (Or.inr rfl) rfl
      all_goals
        simp only [Slot.ofPool, Slot.ofList]
        omega
    · exact .empty rfl rfl rfl rfl rfl rfl
  · rw [h.owns] at hi hj
    omega
  · simp only [State.heldMem, Set.mem_ofPred_eq, h.held, h.owns]
    constructor
    · rintro ⟨hx | hx, hn⟩
      · rcases Nat.lt_or_ge x (s.allocList + env.pageSize) with hx' | hx'
        exacts [⟨0, Or.inl ⟨rfl, hx.1, hx'⟩⟩, ⟨1, Or.inr ⟨rfl, hx', hx.2⟩⟩]
      · exact absurd hx hn
    · rintro ⟨i, ⟨rfl, h1, h2⟩ | ⟨rfl, h1, h2⟩⟩
      · exact ⟨Or.inl ⟨h1, by omega⟩, h.apart x h1 (by omega)⟩
      · exact ⟨Or.inl ⟨by omega, h2⟩, h.apart x (by omega) h2⟩

theorem tidy : Tidy env s := by
  have hP := env.pageSize_pos
  refine ⟨fun i sl hi he => ?_, ?_, ?_, h.list_pos.ne'⟩
  · rcases h.slot hi with ⟨-, rfl⟩ | ⟨-, rfl⟩ | ⟨-, rfl⟩
    · cases he
    · cases he
    · exact ⟨rfl, rfl⟩
  · rw [h.size]
    omega
  · have h2 := env.two_lt_slotsPerPage
    have := Nat.div_mul_le_self env.pageSize sizeofSlot
    rw [h.slots, h.size, firstSlots, List.length_cons, List.length_cons, List.length_replicate]
    have hs : env.slotsPerPage - 2 + 1 + 1 = env.slotsPerPage := by omega
    rw [hs]
    exact this

theorem not_isUser {i : ℕ} {sl : Slot} (hi : s.slots[i]? = some sl) : ¬ sl.IsUser := by
  rcases h.slot hi with ⟨-, rfl⟩ | ⟨-, rfl⟩ | ⟨-, rfl⟩
  · exact fun hu => hu.2 rfl
  · exact fun hu => by cases hu.1
  · exact fun hu => by cases hu.1

theorem live : Live env s := fun _ _ _ hi hu _ => absurd hu (h.not_isUser hi)

end Constructed

section Run

/-- Without a list the retries end in a memory fault. -/
theorem retryCreate_segv {k n fuel c : ℕ} (hk : 0 < k) (hs : s.slots.length = c + 1)
    (hl : s.allocList = 0) (hz : 0 < s.allocListSize) (hpage : s.page env 0 = .unmapped) :
    Wp (retryCreate env k n (fuel + 1)) (fun _ _ => False) (fun e _ => e = .segv 0) s := by
  refine Wp.bind_iff.mpr (Wp.bind_iff.mpr (Wp.get_iff.mpr (Wp.bind_iff.mpr ?_)))
  rw [hs]
  refine Wp.ite (fun h => absurd h (by omega)) fun _ => ?_
  refine Wp.bind_iff.mpr (Wp.bind_iff.mpr (Wp.bind_iff.mpr (Wp.get_iff.mpr (Wp.bind_iff.mpr
    (touch_wp (fun h => ?_) fun _ => congrArg Stop.segv hl)))))
  rw [hl] at h
  have := h 0 le_rfl (by omega)
  rw [hpage] at this
  cases this

/-- The first chunk is mapped at once or not at all: a list at address 0 cannot be reduced. -/
theorem createArena_wp {c : ℕ} (hs : s.slots.length = c + 1) (hl : s.allocList = 0)
    (hz : 0 < s.allocListSize) (hpage : s.page env 0 = .unmapped)
    (hcfg : s.cfg = Config.initial) : Wp (createArena env env.arenaSize)
      (fun a t => s.grant env env.arenaSize = some a ∧
        t = s.afterMmap.created env a env.arenaSize)
      (fun e _ => e = .segv 0 ∧ s.grant env env.arenaSize = none) s := by
  refine Wp.bind_iff.mpr (pageCreate_wp (fun a hg _ h0 => ?_) (fun hg _ => ?_) fun _ h => by cases h)
  · refine Wp.bind_iff.mpr (Wp.get_iff.mpr (Wp.ite (fun h => absurd h.1 h0) fun _ => ?_))
    exact ⟨hg, rfl⟩
  · have hk : 0 < kB env.arenaSize := by
      rw [Env.arenaSize_eq]
      decide
    refine Wp.bind_iff.mpr (Wp.get_iff.mpr (Wp.ite (fun _ => ?_) fun h => absurd ⟨rfl, ?_⟩ h))
    · refine Wp.bind_iff.mpr (Wp.mono (retryCreate_segv hk (s := s.afterMmap) hs hl hz hpage)
        (fun _ _ h => h.elim) fun _ _ h => ⟨h, hg⟩)
    · change s.cfg.protectFree ≠ 0
      rw [hcfg]
      decide

def State.unlisted (env : Env) (s : State) (b : ℕ) : State :=
  { (s.afterMmap.created env b (2 * env.pageSize)).setPages env b
      (b + env.roundUp (2 * env.pageSize)) .noAccess with
    nullBlock := b, allocListSize := env.pageSize
    slots := List.replicate env.slotsPerPage Slot.zero }

def State.listed (env : Env) (s : State) (a : ℕ) : State :=
  let t := { s.afterMmap.created env a env.arenaSize with
    allocList := a, slots := List.replicate env.slotsPerPage Slot.zero }
  ((t.putSlot 0 (Slot.ofList a env.pageSize)).putSlot 1
    (Slot.ofPool (a + env.pageSize) (env.arenaSize - env.pageSize))).setPages env
    (a + env.pageSize) (a + env.pageSize + env.roundUp (env.arenaSize - env.pageSize)) .noAccess

theorem listed_slots (s : State) (a : ℕ) : (s.listed env a).slots = firstSlots env a := by
  obtain ⟨c, hc⟩ : ∃ c, env.slotsPerPage = c + 2 :=
    ⟨env.slotsPerPage - 2, by have := env.two_lt_slotsPerPage; omega⟩
  simp only [State.listed, State.setPages, State.putSlot_slots, firstSlots, hc,
    List.replicate_succ, List.set_cons_zero, List.set_cons_succ, Nat.add_sub_cancel]

theorem firstSlots_get {k : ℕ} (hk : k < 2) :
    (List.replicate env.slotsPerPage Slot.zero)[k]? = some Slot.zero := by
  have := env.two_lt_slotsPerPage
  rw [List.getElem?_replicate, if_pos (by omega)]

theorem listed_trace (s : State) (a : ℕ) : (s.listed env a).trace =
    .state 1 .empty .free :: .state 0 .empty .inUse ::
      .create a (env.roundUp env.arenaSize) :: s.trace := by
  set t : State := { s.afterMmap.created env a env.arenaSize with
    allocList := a, slots := List.replicate env.slotsPerPage Slot.zero } with ht
  have h0 : t.slots[0]? = some Slot.zero := firstSlots_get (by decide)
  have h1 : (t.putSlot 0 (Slot.ofList a env.pageSize)).slots[1]? = some Slot.zero := by
    rw [State.getElem?_putSlot h0, if_neg (by decide)]
    exact firstSlots_get (by decide)
  change ((t.putSlot 0 _).putSlot 1 _).trace = _
  rw [State.putSlot_trace h1, State.putSlot_trace h0]
  rfl

theorem listed_wp {E : Stop → State → Prop} {Q : Unit → State → Prop}
    (hg : s.Granted env a env.arenaSize) (hz : s.allocListSize = env.pageSize)
    (hE : ∀ r t, E (.abort r) t)
    (hQ : Q () { s.listed env a with
      book := { s.afterMmap.book with unUsedSlots := Word.sub env.slotsPerPage 2 } }) :
    Wp (do
      modify fun s => { s with allocList := a }
      touch env a (a + env.pageSize)
      modify fun s => { s with slots := List.replicate env.slotsPerPage Slot.zero }
      modifySlot env 0 fun _ => Slot.ofList a env.pageSize
      if env.pageSize < env.arenaSize then
        modifySlot env 1 fun _ =>
          Slot.ofPool (Word.add a env.pageSize) (Word.sub env.arenaSize env.pageSize)
      let pool ← readSlot env 1
      pageDenyAccess env pool.internalAddress pool.internalSize
      modifyBook fun b => { b with unUsedSlots := Word.sub env.slotsPerPage 2 } : M Unit) Q E
      (s.afterMmap.created env a env.arenaSize) := by
  have hlt := env.pageSize_lt_arenaSize
  have hle := hg.le
  have ht := env.taskSize_le
  rw [Env.roundUp_of_dvd env.dvd_arenaSize] at hle
  rw [Word.add_eq (by omega), Word.sub_eq (by omega) hlt.le]
  have hopen : ∀ x, a ≤ x → x < a + env.pageSize →
      (s.afterMmap.created env a env.arenaSize).page env x = .readWrite := fun x h1 h2 => by
    rw [State.created_page hg.dvd, Env.roundUp_of_dvd env.dvd_arenaSize, if_pos ⟨h1, by omega⟩]
  refine Wp.bind_iff.mpr (Wp.modify_iff.mpr (Wp.bind_iff.mpr
    (touch_wp (fun _ => ?_) fun h => absurd hopen h)))
  refine Wp.bind_iff.mpr (Wp.modify_iff.mpr (Wp.bind_iff.mpr ?_))
  set t : State := { s.afterMmap.created env a env.arenaSize with
    allocList := a, slots := List.replicate env.slotsPerPage Slot.zero } with ht'
  have h0 : t.slots[0]? = some Slot.zero := firstSlots_get (by decide)
  have h1 : (t.putSlot 0 (Slot.ofList a env.pageSize)).slots[1]? = some Slot.zero := by
    rw [State.getElem?_putSlot h0, if_neg (by decide)]
    exact firstSlots_get (by decide)
  have ho : Open env t := fun x h1 h2 => hopen x h1 (h2.trans_eq (congrArg (a + ·) hz))
  have ho1 : Open env (t.putSlot 0 (Slot.ofList a env.pageSize)) := Open.putSlot.mpr ho
  refine modifySlot_wp h0 (Wp.ite (fun _ => Wp.bind_iff.mpr ?_) fun h => absurd hlt h)
    fun h => absurd ho h
  refine modifySlot_wp h1 ?_ fun h => absurd ho1 h
  have h2 := (State.getElem?_putSlot (v := Slot.ofPool (a + env.pageSize)
    (env.arenaSize - env.pageSize)) (j := 1) h1).trans (if_pos rfl)
  refine Wp.bind_iff.mpr (readSlot_wp h2 ?_ fun h => absurd (Open.putSlot.mpr ho1) h)
  refine Wp.bind_iff.mpr (mprotect_wp (fun _ => modifyBook_wp.mpr ?_) fun _ => hE _ _)
  have hb : (s.listed env a).book = s.afterMmap.book :=
    (State.putSlot_book (s := t.putSlot 0 _)).trans State.putSlot_book
  rw [← hb] at hQ
  exact hQ

/-- If the null block is mapped, so is the first chunk at the first request. -/
def Env.Supplied (env : Env) : Prop :=
  ∀ b, (State.pristine env).grant env (2 * env.pageSize) = some b →
    ((State.pristine env).unlisted env b).grant env env.arenaSize ≠ none

/-- The construction with all its outcomes. -/
theorem construct_outcome : Wp (construct env) (fun _ t => Constructed env t ∧ env.Supplied)
    (fun e _ => (∃ r, e = .abort r) ∧ env.Supplied ∨ e = .segv 0 ∧ ¬ env.Supplied)
    (State.pristine env) := by
  set s := State.pristine env with hs
  have hP := env.pageSize_pos
  refine Wp.bind_iff.mpr (pageCreate_wp (fun b hgb hg h0 => ?_) (fun _ h => by cases h)
    fun hnone _ => Or.inl ⟨⟨_, rfl⟩, fun b hb => by rw [hnone] at hb; cases hb⟩)
  have hok : MprotectOk env (s.afterMmap.created env b (2 * env.pageSize)) b (2 * env.pageSize) :=
    ⟨hg.dvd, hg.le, fun x h1 h2 => by rw [State.created_page hg.dvd, if_pos ⟨h1, h2⟩]; decide⟩
  refine Wp.ite (fun h => absurd h h0) fun _ => Wp.bind_iff.mpr (mprotect_wp (fun _ => ?_)
    fun h => absurd hok h)
  refine Wp.bind_iff.mpr (Wp.modify_iff.mpr ?_)
  change Wp _ _ _ (s.unlisted env b)
  have hd : env.pageSize ∣ 2 * env.pageSize := Nat.dvd_mul_left _ _
  have hr : env.roundUp (2 * env.pageSize) = 2 * env.pageSize := Env.roundUp_of_dvd hd
  have hle := hg.le
  rw [hr] at hle
  have hpage : ∀ x, (s.unlisted env b).page env x =
      if b ≤ x ∧ x < b + 2 * env.pageSize then .noAccess else s.page env x := fun x => by
    change ((s.afterMmap.created env b (2 * env.pageSize)).setPages env b
      (b + env.roundUp (2 * env.pageSize)) .noAccess).page env x = _
    rw [State.setPages_page hg.dvd (Nat.dvd_add hg.dvd (Env.dvd_roundUp _)),
      State.created_page hg.dvd, hr]
    split <;> rfl
  have hpage0 : (s.unlisted env b).page env 0 = .unmapped := by
    have := hg.pos
    rw [hpage, if_neg (by omega)]
    exact env.boot_null
  obtain ⟨c, hc⟩ : ∃ c, env.slotsPerPage = c + 1 :=
    ⟨env.slotsPerPage - 1, by have := env.two_lt_slotsPerPage; omega⟩
  have hslots : (s.unlisted env b).slots.length = c + 1 := by
    simp only [State.unlisted, State.setPages, List.length_replicate, hc]
  refine Wp.seq ((createArena_wp hslots rfl hP hpage0 rfl).mono (fun _ _ => id) fun e _ h =>
    Or.inr ⟨h.1, fun hsup => hsup b hgb h.2⟩) ?_
  rintro a _ ⟨hgrant, rfl⟩
  have hga := State.grant_some hgrant
  have hsup : env.Supplied := fun b' hb' => by
    obtain rfl := Option.some.inj (hgb.symm.trans hb')
    rw [hgrant]
    exact Option.some_ne_none a
  refine listed_wp hga rfl (fun r _ => Or.inl ⟨⟨r, rfl⟩, hsup⟩) ⟨?_, hsup⟩
  have hspp : env.slotsPerPage < 2 ^ 64 := by
    have := Nat.div_le_self env.pageSize sizeofSlot
    have := env.pageSize_word
    unfold Env.slotsPerPage
    omega
  rw [Word.sub_eq hspp env.two_lt_slotsPerPage.le]
  have hra := Env.roundUp_of_dvd env.dvd_arenaSize
  have hrp := Env.roundUp_of_dvd (Nat.dvd_sub env.dvd_arenaSize (dvd_refl env.pageSize))
  have hlt := env.pageSize_lt_arenaSize
  have hfresh := hga.fresh
  rw [hra] at hfresh
  have hal : ((s.unlisted env b).listed env a).allocList = a :=
    State.putSlot_allocList.trans State.putSlot_allocList
  have hnb : ((s.unlisted env b).listed env a).nullBlock = b :=
    State.putSlot_nullBlock.trans State.putSlot_nullBlock
  have htr := @listed_trace env (s.unlisted env b) a
  rw [hra] at htr
  have hpages : ∀ x, ((s.unlisted env b).listed env a).page env x =
      if a + env.pageSize ≤ x ∧ x < a + env.arenaSize then .noAccess
      else if a ≤ x ∧ x < a + env.arenaSize then .readWrite
      else if b ≤ x ∧ x < b + 2 * env.pageSize then .noAccess else s.page env x := fun x => by
    have hend : a + env.pageSize + env.roundUp (env.arenaSize - env.pageSize) =
      a + env.arenaSize := by omega
    rw [State.listed, hend, State.setPages_page (Nat.dvd_add hga.dvd dvd_rfl)
      (Nat.dvd_add hga.dvd env.dvd_arenaSize), State.putSlot_page, State.putSlot_page]
    split
    · rfl
    · have := State.created_page (s := (s.unlisted env b).afterMmap) (x := x) (n := env.arenaSize)
        hga.dvd
      rw [hra] at this
      exact this.trans (by rw [← hpage]; rfl)
  have hheld : ∀ x, held ((s.unlisted env b).listed env a).trace x ↔
      a ≤ x ∧ x < a + env.arenaSize ∨ b ≤ x ∧ x < b + 2 * env.pageSize := fun x => by
    rw [htr]
    have hnull : (s.unlisted env b).trace = [.create b (env.roundUp (2 * env.pageSize))] := rfl
    rw [hnull, hr]
    simp only [held, or_false]
  have hapart : ∀ x, a ≤ x → x < a + env.arenaSize → ¬ (b ≤ x ∧ x < b + 2 * env.pageSize) :=
    fun x h1 h2 h3 => by
      have := hfresh x h1 h2
      rw [hpage, if_pos h3] at this
      cases this
  have hle' := hga.le
  rw [hra] at hle'
  exact {
    slots := by rw [State.withBook_slots, listed_slots]; exact congrArg _ hal.symm
    cfg := State.putSlot_cfg.trans State.putSlot_cfg
    tls := State.putSlot_tls.trans State.putSlot_tls
    size := State.putSlot_allocListSize.trans State.putSlot_allocListSize
    initDone := State.putSlot_initDone.trans State.putSlot_initDone
    unUsed := rfl
    allocated := rfl
    «protected» := rfl
    semDepth := rfl
    list_pos := hga.pos.trans_eq hal.symm
    null_pos := hg.pos.trans_eq hnb.symm
    null_dvd := hg.dvd.trans (dvd_of_eq hnb.symm)
    dvd := hga.dvd.trans (dvd_of_eq hal.symm)
    le := (congrArg (· + env.arenaSize) hal).trans_le hle'
    held := fun x => by rw [State.InNull, hal, hnb]; exact hheld x
    apart := fun x => by rw [State.InNull, hal, hnb]; exact hapart x
    mapped := fun x hx => by
      refine (hpages x).symm ▸ ?_
      have := (hheld x).mp hx
      split
      · decide
      · split
        · decide
        · next h => rw [if_pos (this.resolve_left h)]; decide
    pool := fun x h1 h2 => by
      rw [hal] at h1 h2
      exact (hpages x).trans (if_pos ⟨h1, h2⟩)
    trace := ⟨_, by rw [hal, hnb]; exact htr⟩ }

theorem construct_wp : Wp (construct env) (fun _ t => Constructed env t) (fun _ _ => True)
    (State.pristine env) :=
  construct_outcome.mono (fun _ _ h => h.1) fun _ _ _ => trivial

end Run

end Duma

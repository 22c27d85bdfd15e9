import Duma.Runs.Admitted

/-! # The blocks of the program

The blocks that the program holds follow the slots in use through every step of a call: a slot handed
out is a new block, a slot released is a block less, and nothing else touches either.
-/

namespace Duma

variable {env : Env} {settings : Settings} {w w' : World} {s t u : State} {heap : List Block}
  {W : List Block → ℕ → ℕ → Prop} {b b' : Block} {r : Request} {n al i p lo hi : ℕ} {l : Layout}
  {sl new : Slot} {site : Site} {c : Call} {allocator : Allocator} {address : ℕ}

/-- The slot is the one created for the block. -/
structure Slot.Carries (env : Env) (sl : Slot) (b : Block) : Prop where
  user : sl.IsUser
  addr : sl.userAddress = b.addr
  size : sl.userSize = b.size
  allocator : sl.allocator = b.allocator
  filename : sl.filename = b.site.filename
  lineno : env.explicitInit = false → sl.lineno = b.site.lineno
  side : b.size ≠ 0 → (b.below = true ↔ sl.protAddress < sl.userAddress)
  fill : env.explicitInit = true → sl.slackfill = b.slackfill

namespace Block

/-- The slot of the block is in use for it. -/
def Held (env : Env) (s : State) (b : Block) : Prop :=
  ∃ sl, s.slots[b.slot]? = some sl ∧ sl.Carries env b

def Same (b b' : Block) : Prop := ∃ f, b' = { b with bytes := f }

def Reads (s : State) (b : Block) : Prop := ∀ k < b.size, b.bytes k = s.mem (b.addr + k)

structure Answers (b : Block) (r : Request) (p i : ℕ) (s : State) : Prop where
  addr : b.addr = p
  size : b.size = r.userSize
  allocator : b.allocator = r.allocator
  site : b.site = r.site
  below : b.below = r.protectBelow
  slackfill : b.slackfill = s.cfg.slackfill
  slot : b.slot = i

theorem Same.refl (b : Block) : b.Same b := ⟨b.bytes, rfl⟩

theorem Same.carries (h : b.Same b') : sl.Carries env b' ↔ sl.Carries env b := by
  obtain ⟨f, rfl⟩ := h
  constructor <;> exact fun hc => ⟨hc.user, hc.addr, hc.size, hc.allocator, hc.filename, hc.lineno,
    hc.side, hc.fill⟩

theorem Same.slot (h : b.Same b') : b'.slot = b.slot := by
  obtain ⟨f, rfl⟩ := h
  rfl

theorem Same.held (h : b.Same b') : b'.Held env s ↔ b.Held env s := by
  unfold Held
  simp only [h.slot, h.carries]

theorem write_same (b : Block) (lo hi : ℕ) (f : ℕ → UInt8) : b.Same (b.write lo hi f) := ⟨_, rfl⟩

theorem Held.congr (h : b.Held env s) (hs : t.slots = s.slots) : b.Held env t := by
  obtain ⟨sl, hi, hc⟩ := h
  exact ⟨sl, hs ▸ hi, hc⟩

end Block

/-- What a step of a run does to the blocks of the program; `W` says where the program may write. -/
inductive World.Act (env : Env) (W : List Block → ℕ → ℕ → Prop) : World → World → Prop
  | silent {heap : List Block} {s t : State} {ok : ℕ → Prop} (hok : ∀ n, ok n → WholePages env n)
      (h : Silent env ok s t) : Act env W ⟨heap, s⟩ ⟨heap, t⟩
  | take {heap : List Block} {s t : State} {n al i : ℕ} {r : Request} {l : Layout} {b : Block}
      (hS : Served env n al r) (hu : r.allocator.type ≠ .internal) (h : Take env n al r i l s t)
      (hb : b.Answers r l.userAddr i t) (hr : b.Reads t) : Act env W ⟨heap, s⟩ ⟨b :: heap, t⟩
  | release {heap : List Block} {s t : State} {i : ℕ} {sl : Slot} {site : Site}
      (hi : s.slots[i]? = some sl) (hu : sl.IsUser) (h : Release env i sl site s t) :
      Act env W ⟨heap, s⟩ ⟨heap.filter fun b => some sl.userAddress != some b.addr, t⟩
  /-- the allocator writes to the block that it has just handed out -/
  | fill {heap : List Block} {s : State} {b b' : Block} {lo hi : ℕ} {f : ℕ → UInt8}
      (hb : b.Same b') (hin : lo < hi → b.addr ≤ lo ∧ hi ≤ b.addr + b.size)
      (hr : b'.Reads (s.store lo hi f)) : Act env W ⟨b :: heap, s⟩ ⟨b' :: heap, s.store lo hi f⟩
  | write {heap : List Block} {s : State} {lo hi : ℕ} {f : ℕ → UInt8} (hW : W heap lo hi) :
      Act env W ⟨heap, s⟩ ⟨heap.map (·.write lo hi f), s.store lo hi f⟩
  /-- the initialisation keeps a block for itself -/
  | forget {heap : List Block} {s : State} {b : Block} (hx : env.explicitInit = true) :
      Act env W ⟨b :: heap, s⟩ ⟨heap, s⟩
  | set {heap : List Block} {s : State} {cfg : Config} {tls : Tls}
      (hx : env.explicitInit = true ∨ heap = [] ∨ cfg = s.cfg) :
      Act env W ⟨heap, s⟩ ⟨heap, { s with cfg, tls }⟩
  | initDone {heap : List Block} {s : State} : Act env W ⟨heap, s⟩ ⟨heap, { s with initDone := true }⟩

abbrev World.Acts (env : Env) (W : List Block → ℕ → ℕ → Prop) : World → World → Prop :=
  Relation.ReflTransGen (World.Act env W)

/-- Every block of the program has a slot of its own that is in use for it. -/
structure World.Matched (env : Env) (w : World) : Prop where
  safe : Safe env w.st
  held : ∀ b ∈ w.heap, b.Held env w.st
  nodup : (w.heap.map (·.slot)).Nodup

section Step

theorem Taken.side (hT : Taken env n al r i l s t sl new) (hS : Served env n al r)
    (h0 : r.userSize ≠ 0) : r.protectBelow = true ↔ new.protAddress < new.userAddress := by
  obtain ⟨hn, hf⟩ := hS.fits hT.region hT.size h0
  have hP := env.pageSize_pos
  have hu : new.userAddress = l.userAddr := by rw [hT.new_eq]; rfl
  have hp : new.protAddress = l.protAddr := by rw [hT.new_eq]; rfl
  rw [hu, hp, hT.layout, layoutFor, if_neg h0]
  cases hb : r.protectBelow with
  | false =>
    obtain ⟨u, q, he, -, -, -, h1, -⟩ := hf.above
    rw [if_pos rfl, hn, he]
    simp only [Bool.false_eq_true, false_iff]
    omega
  | true =>
    obtain ⟨u, q, he, -, -, h1, -⟩ := hf.below
    rw [if_neg (by decide), he]
    simp only [true_iff]
    omega

theorem Taken.carries (hT : Taken env n al r i l s t sl new) (hS : Served env n al r)
    (hu : r.allocator.type ≠ .internal) (hb : b.Answers r l.userAddr i t) : new.Carries env b := by
  have hcfg := hT.frame.1
  have hsize : new.userSize = b.size := by rw [hb.size, hT.new_eq]; rfl
  refine ⟨⟨hT.state_eq, hT.allocator_eq ▸ hu⟩, ?_, hsize, ?_, ?_, fun hx => ?_, fun h0 => ?_,
    fun hx => ?_⟩
  · rw [hb.addr, hT.new_eq]; rfl
  · rw [hb.allocator, hT.allocator_eq]
  · rw [hb.site, hT.new_eq]; rfl
  · rw [hb.site, hT.new_eq]
    exact if_neg (by simp [hx])
  · rw [hb.below]
    exact hT.side hS (hb.size ▸ h0)
  · rw [hb.slackfill, hcfg, hT.new_eq]
    exact if_pos hx

namespace World.Matched

theorem congr (h : Matched env ⟨heap, s⟩) (hs : t.slots = s.slots) (ht : Safe env t) :
    Matched env ⟨heap, t⟩ :=
  ⟨ht, fun b hb => (h.held b hb).congr hs, h.nodup⟩

theorem take (h : Matched env ⟨heap, s⟩) (hT : Taken env n al r i l s t sl new)
    (hS : Served env n al r) (hu : r.allocator.type ≠ .internal) (hb : b.Answers r l.userAddr i t)
    (ht : Safe env t) : Matched env ⟨b :: heap, t⟩ := by
  have hne : ∀ b' ∈ heap, b'.slot ≠ i := fun b' hb' he => by
    obtain ⟨sl', hi, hc⟩ := h.held b' hb'
    obtain rfl := Option.some.inj (hi.symm.trans (he ▸ hT.old))
    have := hT.free
    rw [hc.user.1] at this
    cases this
  refine ⟨ht, fun b' hb' => ?_, List.nodup_cons.mpr ⟨fun hm => ?_, h.nodup⟩⟩
  · rcases List.mem_cons.mp hb' with rfl | hb'
    · exact ⟨new, by rw [hb.slot, hT.slot, if_pos rfl], hT.carries hS hu hb⟩
    · obtain ⟨sl', hi, hc⟩ := h.held b' hb'
      exact ⟨sl', by rw [hT.slot, if_neg (hne b' hb').symm, hi], hc⟩
  · obtain ⟨b', hb', he⟩ := List.mem_map.mp hm
    exact hne b' hb' (he.trans hb.slot)

theorem release (h : Matched env ⟨heap, s⟩) (hi : s.slots[i]? = some sl) (hu : sl.IsUser)
    (hr : Release env i sl site s t) (ht : Safe env t) :
    Matched env ⟨heap.filter fun b => some sl.userAddress != some b.addr, t⟩ := by
  have hloc := hr.local h.safe.core hi (by rw [hu.1]; nofun)
  refine ⟨ht, fun b hb => ?_, h.nodup.sublist (List.filter_sublist.map _)⟩
  obtain ⟨hb, hne⟩ := List.mem_filter.mp hb
  obtain ⟨sl', hk, hc⟩ := h.held b hb
  refine ⟨sl', hloc.slot (fun he => ?_) hk, hc⟩
  obtain rfl := Option.some.inj (hk.symm.trans (he ▸ hi))
  exact (bne_iff_ne.mp hne) (by rw [hc.addr])

theorem fill {f : ℕ → UInt8} (h : Matched env ⟨b :: heap, s⟩) (hb : b.Same b') :
    Matched env ⟨b' :: heap, s.store lo hi f⟩ := by
  refine ⟨⟨h.safe.core.of_mem, h.safe.live, h.safe.tidy.congr rfl rfl rfl⟩, fun c hc => ?_, ?_⟩
  · rcases List.mem_cons.mp hc with rfl | hc
    · exact (hb.held.mpr (h.held b List.mem_cons_self)).congr rfl
    · exact (h.held c (List.mem_cons_of_mem _ hc)).congr rfl
  · have := h.nodup
    rwa [List.map_cons, ← hb.slot] at this

theorem write {f : ℕ → UInt8} (h : Matched env ⟨heap, s⟩) :
    Matched env ⟨heap.map (·.write lo hi f), s.store lo hi f⟩ := by
  refine ⟨⟨h.safe.core.of_mem, h.safe.live, h.safe.tidy.congr rfl rfl rfl⟩, fun c hc => ?_, ?_⟩
  · obtain ⟨b, hb, rfl⟩ := List.mem_map.mp hc
    exact ((b.write_same lo hi f).held.mpr (h.held b hb)).congr rfl
  · rw [List.map_map]
    exact h.nodup

end World.Matched

theorem Safe.release (h : Safe env s) (hi : s.slots[i]? = some sl) (hu : sl.IsUser)
    (hr : Release env i sl site s t) : Safe env t :=
  ⟨hr.core h.core hi hu.1 hu.not_isList, hr.live h.core hi (by rw [hu.1]; nofun) h.live,
    h.tidy.release hr⟩

theorem Safe.silent {ok : ℕ → Prop} (hok : ∀ n, ok n → WholePages env n) (h : Safe env s)
    (hs : Silent env ok s t) : Safe env t := by
  have hc := hs.calm hok h.core
  exact ⟨hc.core, hc.keeps.live h.core h.live, h.tidy.silent hs⟩

theorem Safe.take (h : Safe env s) (hS : Served env n al r) (hu : r.allocator.type ≠ .internal)
    (ht : Take env n al r i l s t) : Safe env t := by
  obtain ⟨sl, new, hT⟩ := ht.taken h.core hS
  exact ⟨ht.core h.core hS fun h => absurd h hu, hT.liveAll h.core h.live, h.tidy.take ht⟩

/-- Every step keeps the slots of the blocks. -/
theorem World.Act.matched (h : w.Matched env) (ha : World.Act env W w w') : w'.Matched env := by
  cases ha with
  | silent hok hs =>
    have hc := hs.calm hok h.safe.core
    refine ⟨h.safe.silent hok hs, fun b hb => ?_, h.nodup⟩
    obtain ⟨sl, hi, hcar⟩ := h.held b hb
    exact ⟨sl, hc.keeps.slot hi hcar.user, hcar⟩
  | take hS hu ht hb =>
    obtain ⟨sl, new, hT⟩ := ht.taken h.safe.core hS
    exact h.take hT hS hu hb (h.safe.take hS hu ht)
  | release hi hu hr => exact h.release hi hu hr (h.safe.release hi hu hr)
  | fill hb => exact h.fill hb
  | write => exact h.write
  | forget =>
    exact ⟨h.safe, fun b hb => h.held b (List.mem_cons_of_mem _ hb), (List.nodup_cons.mp h.nodup).2⟩
  | set =>
    exact h.congr rfl ⟨h.safe.core.congr rfl rfl rfl rfl rfl rfl, h.safe.live,
      h.safe.tidy.congr rfl rfl rfl⟩
  | initDone =>
    exact h.congr rfl ⟨h.safe.core.congr rfl rfl rfl rfl rfl rfl, h.safe.live,
      h.safe.tidy.congr rfl rfl rfl⟩

theorem World.Acts.matched (h : w.Matched env) (ha : World.Acts env W w w') : w'.Matched env := by
  induction ha with
  | refl => exact h
  | tail _ ha ih => exact ha.matched ih

end Step

namespace World.Matched

variable (h : w.Matched env)
include h

theorem slot (hb : b ∈ w.heap) : ∃ sl, w.st.slots[b.slot]? = some sl ∧ sl.Carries env b ∧
    sl.RegionOk env ∧ sl.Placed env ∧ sl.Owns b.addr := by
  obtain ⟨sl, hi, hc⟩ := h.held b hb
  have hwf := h.safe.core.slot hi
  have hr := hwf.region (by rw [hc.user.1]; nofun)
  exact ⟨sl, hi, hc, hr, hwf.placed hc.user.1, hc.addr ▸ (hwf.placed hc.user.1).owns_user hr⟩

theorem addr_ne (hb : b ∈ w.heap) : b.addr ≠ 0 ∧ b.addr ≠ w.st.nullAddr env := by
  obtain ⟨sl, hi, hc, hr, -, hown⟩ := h.slot hb
  have hpos := hr.pos
  have hP := env.pageSize_pos
  refine ⟨fun h0 => ?_, fun h0 => h.safe.core.not_null_of_owns (h.safe.core.owns hi hown) ?_⟩
  · have := hown.1
    omega
  · rw [h0]
    unfold State.InNull State.nullAddr
    omega

theorem eq_slot (hb : b ∈ w.heap) (hb' : b' ∈ w.heap) (ha : b.addr = b'.addr) :
    b.slot = b'.slot := by
  obtain ⟨sl, hi, -, -, -, hown⟩ := h.slot hb
  obtain ⟨sl', hi', -, -, -, hown'⟩ := h.slot hb'
  exact h.safe.core.eq_of_owns hi hi' hown (ha ▸ hown')

theorem filter_self {o : Option ℕ} (ho : ∀ a, o = some a → a = 0 ∨ a = w.st.nullAddr env) :
    w.heap.filter (fun b => o != some b.addr) = w.heap := by
  refine List.filter_eq_self.mpr fun b hb => bne_iff_ne.mpr fun he => ?_
  have := h.addr_ne hb
  exact (ho _ he).elim this.1 this.2

theorem newBlock_slot (hb : b ∈ w.heap) : (w.st.newBlock r b.addr).slot = b.slot := by
  obtain ⟨sl, hi, hc, -, -, hown⟩ := h.slot hb
  obtain ⟨hlt, hsl⟩ := List.getElem?_eq_some_iff.mp hi
  refine (List.findIdx_eq hlt).mpr ⟨by simp [hsl, hc.addr], fun j hj => ?_⟩
  by_contra hcon
  have hlen := hj.trans hlt
  have hj' : w.st.slots[j]? = some w.st.slots[j] := List.getElem?_eq_getElem hlen
  have he : w.st.slots[j].userAddress = sl.userAddress := by
    rw [hc.addr]
    simpa using hcon
  exact hj.ne (h.safe.core.eq_of_user hj' hi he (by rw [he, hc.addr]; exact (h.addr_ne hb).1))

end World.Matched

section Parts

variable {ok : ℕ → Prop}

theorem Silents.world (hok : ∀ n, ok n → WholePages env n) (h : Silents env ok s t) :
    World.Acts env W ⟨heap, s⟩ ⟨heap, t⟩ := by
  induction h with
  | refl => exact .refl
  | tail _ hs ih => exact ih.tail (.silent hok hs)

theorem World.Act.look (hb : b.Same b') (hr : b'.Reads s) :
    World.Act env W ⟨b :: heap, s⟩ ⟨b' :: heap, s⟩ := by
  have hfill : b'.Reads (s.store 0 0 fun _ => 0) →
      World.Act env W ⟨b :: heap, s⟩ ⟨b' :: heap, s.store 0 0 fun _ => 0⟩ :=
    .fill hb fun h => absurd h (lt_irrefl 0)
  rw [State.store_of_le le_rfl] at hfill
  exact hfill hr

theorem State.filled_nullAddr : (s.filled r p).nullAddr env = s.nullAddr env := by
  unfold State.filled
  split <;> rfl

theorem State.filled_zero : s.filled r 0 = s := if_neg fun h => h.1 rfl

theorem filled_world (hb : b.Same b') (ha : b.addr = p) (hn : b.size = r.userSize)
    (hr : b'.Reads (s.filled r p)) :
    World.Act env W ⟨b :: heap, s⟩ ⟨b' :: heap, s.filled r p⟩ := by
  unfold State.filled at hr ⊢
  split
  · next h =>
    rw [if_pos h] at hr
    exact .fill hb (fun _ => ⟨ha.le, by rw [ha, hn]⟩) hr
  · next h =>
    rw [if_neg h] at hr
    exact .look hb hr

theorem State.left_nullAddr {v : Bool} : (s.left env v).nullAddr env = s.nullAddr env := by
  cases v <;> rfl

theorem State.left_cfg {v : Bool} : (s.left env v).cfg = s.cfg := by cases v <;> rfl

theorem State.copied_nullAddr {q oldBuffer oldSize newSize : ℕ} :
    (s.copied q oldBuffer oldSize newSize).nullAddr env = s.nullAddr env := by
  unfold State.copied
  split <;> rfl

theorem Deallocated.nullAddr {v : Bool} (h : Deallocated env address v allocator site s t) :
    t.nullAddr env = s.nullAddr env := by
  cases h with
  | null _ ht => rw [ht]
  | freed _ hf ht =>
    have hin : (s.entered env v).nullAddr env = s.nullAddr env := by cases v <;> rfl
    rw [ht, State.left_nullAddr, ← hin]
    unfold State.nullAddr
    rw [hf.same.nullBlock]

inductive World.Gets (env : Env) (W : List Block → ℕ → ℕ → Prop) (w : World) (r : Request) (p : ℕ)
    (t : State) : Prop
  | nothing (hp : p = 0 ∨ p = t.nullAddr env ∧ r.userSize = 0) (h : World.Acts env W w ⟨w.heap, t⟩)
  | block {i : ℕ} (hp : p ≠ 0 ∧ p ≠ t.nullAddr env)
      (h : ∀ b : Block, b.Answers r p i t → b.Reads t → World.Acts env W w ⟨b :: w.heap, t⟩)

theorem Served'.world (h : w.Matched env) (hS : w.st.Serves env (Served env) r)
    (hu : r.allocator.type ≠ .internal) (hs : Served' env r w.st p t) : w.Gets env W r p t := by
  cases hs with
  | null hb h0 hp ht =>
    have hsil : Silents env (fun _ => False) w.st t := ht ▸ hb.silents
    refine .nothing (hp.imp_right fun hp => ⟨?_, h0⟩) (Silents.world (fun _ => False.elim) hsil)
    rw [hp, ht]
    rfl
  | @served b u hb hh ht =>
    have hin : World.Acts env W w ⟨w.heap, State.entered env r.protectAllocList
        { w.st with book := b }⟩ :=
      Silents.world (fun _ => False.elim) (hb.silents.trans silents_entered)
    have hout : ∀ (heap : List Block) (v : State), World.Acts env W ⟨heap, v⟩
        ⟨heap, v.left env r.protectAllocList⟩ := fun heap v =>
      Silents.world (fun _ => False.elim)
        (silents_left : Silents env (fun _ => False) v (v.left env r.protectAllocList))
    cases hh with
    | none hi hp =>
      subst hp
      rw [State.filled_zero] at ht
      subst ht
      exact .nothing (Or.inl rfl) ((hin.trans (Silents.world (fun _ => False.elim)
        (Inners.silents hi))).trans (hout _ _))
    | @some i l v hi hT hp =>
      have hv : World.Acts env W w ⟨w.heap, v⟩ :=
        hin.trans (Silents.world hS.whole (Inners.silents hi))
      have hm := hv.matched h
      obtain ⟨sl, new, hTk⟩ := hT.taken hm.safe.core hS
      have hc := (hm.safe.take hS hu hT).core
      have hi : u.slots[i]? = some new := by rw [hTk.slot, if_pos rfl]
      have hpu : new.userAddress = p := by rw [hp, hTk.new_eq]; rfl
      have hown := hpu ▸ hTk.placed.owns_user hTk.region'
      have hpos := hTk.region'.pos
      have hP := env.pageSize_pos
      have hnull : t.nullAddr env = u.nullAddr env := by
        rw [ht, State.filled_nullAddr, State.left_nullAddr]
      have hcfg : t.cfg = u.cfg := by rw [ht, State.filled_cfg, State.left_cfg]
      refine .block (i := i) ⟨fun h0 => ?_, fun h0 => hc.not_null_of_owns (hc.owns hi hown) ?_⟩
        fun b hb hr => ?_
      · have := hown.1
        omega
      · rw [h0, hnull]
        unfold State.InNull State.nullAddr
        omega
      · let b₀ : Block := { b with bytes := fun k => u.mem (b.addr + k) }
        have hb₀ : b₀.Answers r l.userAddr i u :=
          ⟨hp ▸ hb.addr, hb.size, hb.allocator, hb.site, hb.below, hcfg ▸ hb.slackfill, hb.slot⟩
        have htake : World.Act env W ⟨w.heap, v⟩ ⟨b₀ :: w.heap, u⟩ :=
          .take hS hu hT hb₀ fun _ _ => rfl
        have hfill : World.Act env W ⟨b₀ :: w.heap, u.left env r.protectAllocList⟩
            ⟨b :: w.heap, t⟩ := by
          rw [ht] at hr ⊢
          exact filled_world ⟨b.bytes, rfl⟩ hb.addr hb.size hr
        exact ((hv.tail htake).trans (hout _ _)).tail hfill

/-- What a deallocation does to the blocks. -/
theorem Deallocated.world {v : Bool} (h : w.Matched env) (hty : allocator.type ≠ .internal)
    (hd : Deallocated env address v allocator site w.st t) :
    World.Acts env W w ⟨w.heap.filter fun b => some address != some b.addr, t⟩ := by
  cases hd with
  | null ha ht =>
    rw [h.filter_self (by rintro a ⟨⟩; exact ha), ht]
  | @freed u h0 hf ht =>
    obtain ⟨hc, hi, hi', hu, hnp, hty', hr⟩ := hf
    have hin : World.Acts env W w ⟨w.heap, _⟩ := Silents.world (fun _ => False.elim)
      (silents_entered.trans (Inners.silents (Cedes.inners hc)))
    have hm := hin.matched h
    have husr := (hm.safe.core.slot hi').isUser (hu ▸ h0) hnp (hty' ▸ hty)
    have hrel : World.Act env W ⟨w.heap, _⟩ ⟨_, u⟩ := .release hi' husr hr
    rw [hu] at hrel
    rw [ht]
    exact (hin.tail hrel).trans (Silents.world (fun _ => False.elim)
      (silents_left : Silents env (fun _ => False) u _))

end Parts

section Call

variable {oldBuffer newSize oldSize size str : ℕ} {o : Option ℕ} {copies : List (ℕ × Site)}

theorem store_world {f : ℕ → UInt8} (hin : lo < hi → b.addr ≤ lo ∧ hi ≤ b.addr + b.size)
    (hb : b.Same b') (hr : b'.Reads (s.store lo hi f)) :
    World.Acts env W ⟨b :: heap, s⟩ ⟨b' :: heap, s.store lo hi f⟩ := .single (.fill hb hin hr)

theorem copied_world (ha : b.addr = p) (hn : b.size = newSize)
    (hr : b.Reads (s.copied p oldBuffer oldSize newSize)) :
    World.Acts env W ⟨{ b with bytes := fun k => s.mem (b.addr + k) } :: heap, s⟩
      ⟨b :: heap, s.copied p oldBuffer oldSize newSize⟩ := by
  unfold State.copied at hr ⊢
  dsimp only at hr ⊢
  split
  · next hlt =>
    rw [if_pos hlt] at hr
    set f := fun x => s.mem (oldBuffer + (x - p))
    have h₁ : World.Acts env W ⟨{ b with bytes := fun k => s.mem (b.addr + k) } :: heap, s⟩
        ⟨{ b with bytes := fun k => (s.store p (p + oldSize) f).mem (b.addr + k) } :: heap,
          s.store p (p + oldSize) f⟩ :=
      store_world (fun _ => ⟨ha.le, by simp only [ha, hn]; omega⟩) ⟨_, rfl⟩ fun _ _ => rfl
    exact h₁.trans (store_world (fun _ => ⟨by simp only [ha]; omega, by simp only [ha, hn]; omega⟩)
      ⟨b.bytes, rfl⟩ hr)
  · next hlt =>
    rw [if_neg hlt] at hr
    exact store_world (fun _ => ⟨ha.le, by simp only [ha, hn]; omega⟩) ⟨b.bytes, rfl⟩ hr

theorem newBlock_world {q : ℕ} (h : w.Matched env) (hb : b.Same { t.newBlock r p with slot := q })
    (ha : World.Acts env W w ⟨(b :: heap).filter fun b => o != some b.addr, t⟩) :
    World.Acts env W w ⟨(t.newBlock r p :: heap).filter fun b => o != some b.addr, t⟩ := by
  have haddr : b.addr = p := by
    obtain ⟨f, hf⟩ := hb
    exact (congrArg Block.addr hf).symm
  by_cases ho : o = some p
  · have hno : ∀ b : Block, b.addr = p → ¬ (o != some b.addr) = true := fun b hb => by simp [ho, hb]
    rw [List.filter_cons, if_neg (hno _ haddr)] at ha
    rw [List.filter_cons, if_neg (hno _ rfl)]
    exact ha
  · have hyes : ∀ b : Block, b.addr = p → (o != some b.addr) = true := fun b hb => by simp [ho, hb]
    rw [List.filter_cons, if_pos (hyes _ haddr)] at ha
    rw [List.filter_cons, if_pos (hyes _ rfl)]
    have hl : World.Acts env W w ⟨_, t⟩ := ha.tail (World.Act.look hb fun _ _ => rfl)
    have hslot : (t.newBlock r p).slot = q :=
      (hl.matched h).newBlock_slot (r := r) List.mem_cons_self
    have he : { t.newBlock r p with slot := q } = t.newBlock r p := by rw [← hslot]
    rw [he] at hl
    exact hl

theorem World.Gets.newBlock (h : w.Matched env) (hg : w.Gets env W r p t)
    (ho : ∀ a, o = some a → a = 0) :
    World.Acts env W w ⟨(if p = 0 ∨ p = t.nullAddr env then w.heap
      else t.newBlock r p :: w.heap).filter fun b => o != some b.addr, t⟩ := by
  cases hg with
  | nothing hp ha =>
    have hf := (ha.matched h).filter_self (o := o) fun a ha => Or.inl (ho a ha)
    rw [if_pos (hp.imp_right And.left), hf]
    exact ha
  | @block i hp ha =>
    rw [if_neg (not_or.mpr hp)]
    have hb := ha { t.newBlock r p with slot := i } ⟨rfl, rfl, rfl, rfl, rfl, rfl, rfl⟩
      fun _ _ => rfl
    have hf := (hb.matched h).filter_self (o := o) fun a ha => Or.inl (ho a ha)
    refine newBlock_world (q := i) h (Block.Same.refl _) ?_
    rw [hf]
    exact hb

theorem Dupped.world (h : w.Matched env)
    (hS : ∀ size < env.taskSize, strlen env str w.st = .ok size w.st →
      w.st.Serves env (Served env) (w.st.tls.strdupRequest size site))
    (hd : Dupped env str site w.st p t) : ∃ size, strlen env str w.st = .ok size w.st ∧
      w.Gets env W (w.st.tls.strdupRequest size site) p t := by
  have hu : ∀ size, (w.st.tls.strdupRequest size site).allocator.type ≠ .internal := fun _ =>
    show AllocType.malloc ≠ .internal by decide
  cases hd with
  | failed hs hd hp => exact ⟨_, hs, hd.world h (hS _ (strlen_lt hs) hs) (hu _)⟩
  | @done size u hs hd hp hn =>
    refine ⟨size, hs, ?_⟩
    have hsize : (w.st.tls.strdupRequest size site).userSize = size + 1 := Word.add_eq (by omega)
    cases hd.world (W := W) h (hS _ (strlen_lt hs) hs) (hu _) with
    | nothing hp' =>
      rcases hp' with hp' | ⟨-, h0⟩
      · exact absurd hp' hp
      · rw [hsize] at h0
        cases h0
    | @block i hp' hg =>
      refine .block (i := i) hp' fun b hb hr => ?_
      have h₁ := hg { b with bytes := fun k => u.mem (b.addr + k) }
        ⟨hb.addr, hb.size, hb.allocator, hb.site, hb.below, hb.slackfill, hb.slot⟩ fun _ _ => rfl
      refine h₁.trans (store_world (fun _ => ⟨?_, ?_⟩) ⟨b.bytes, rfl⟩ hr)
      · exact hb.addr.le
      · simp only [hb.addr, hb.size, hsize]
        exact le_rfl

theorem Realloced.world (h : w.Matched env)
    (hS : ∀ r, (Call.realloc oldBuffer newSize site).request env w.st = some r →
      w.st.Serves env (Served env) r)
    (hr : Realloced env oldBuffer newSize site w.st p t) : World.Acts env W w
      ⟨w.heapAfter env (.realloc oldBuffer newSize site) p t, t⟩ := by
  have malloc : AllocType.malloc ≠ .internal := by decide
  have realloc : Allocator.realloc.type ≠ .internal := by decide
  unfold World.heapAfter
  dsimp only
  cases hr with
  | new h0 hs =>
    have hreq : (Call.realloc oldBuffer newSize site).request env w.st =
        some (w.st.tls.reallocNewRequest newSize site) := if_pos h0
    rw [hreq]
    refine (hs.world h (hS _ hreq) malloc).newBlock h fun a ha => ?_
    simp only [Call.frees, h0] at ha
    split at ha
    · exact (Option.some.inj ha).symm
    · exact absurd ha nofun
  | free h0 hn hp hd =>
    have hreq : (Call.realloc oldBuffer newSize site).request env w.st = none :=
      (if_neg h0).trans (if_pos hn)
    have hfrees : (Call.realloc oldBuffer newSize site).frees p = some oldBuffer :=
      if_pos (Or.inl hn)
    rw [hreq, hfrees]
    exact hd.world h realloc
  | move h0 hn hm =>
    have hreq : (Call.realloc oldBuffer newSize site).request env w.st =
        some (w.st.tls.reallocRequest newSize site) := (if_neg h0).trans (if_neg hn)
    have hserve := hS _ hreq
    rw [hreq]
    cases hm with
    | failed hs hp =>
      have hfrees : (Call.realloc oldBuffer newSize site).frees p = none :=
        if_neg fun hc => hc.elim hn (fun hc => hc hp)
      rw [hfrees]
      exact (hs.world h hserve malloc).newBlock h nofun
    | @done u v i sl hs hp hi hu hd =>
      have hfrees : (Call.realloc oldBuffer newSize site).frees p = some oldBuffer :=
        if_pos (Or.inr hp)
      rw [hfrees]
      cases hs.world (W := W) h hserve malloc with
      | nothing hp' => exact absurd (hp'.resolve_left hp).2 hn
      | @block q hp' hg =>
        have hcfg : t.cfg = u.cfg := by rw [hd.cfg, State.copied_cfg]
        have hnull : t.nullAddr env = u.nullAddr env := by
          rw [hd.nullAddr, State.copied_nullAddr]
        dsimp only
        rw [if_neg (by rw [hnull]; exact not_or.mpr hp')]
        set c := u.copied p oldBuffer sl.userSize newSize
        let b : Block := { t.newBlock (w.st.tls.reallocRequest newSize site) p with
          slot := q, bytes := fun k => c.mem (p + k) }
        have h₁ := hg { b with bytes := fun k => u.mem (p + k) }
          ⟨rfl, rfl, rfl, rfl, rfl, congrArg Config.slackfill hcfg, rfl⟩ fun _ _ => rfl
        have h₂ : World.Acts env W w ⟨b :: w.heap, c⟩ :=
          h₁.trans (copied_world rfl rfl fun _ _ => rfl)
        have h₃ := h₂.trans (hd.world (h₂.matched h) realloc)
        exact newBlock_world (b := b) (q := q) h ⟨_, rfl⟩ h₃

theorem World.Gets.forget (hx : env.explicitInit = true) (hg : w.Gets env W r p t) :
    World.Acts env W w ⟨w.heap, t⟩ := by
  cases hg with
  | nothing _ ha => exact ha
  | @block i _ ha =>
    exact (ha { t.newBlock r p with slot := i } ⟨rfl, rfl, rfl, rfl, rfl, rfl, rfl⟩
      fun _ _ => rfl).tail (.forget hx)

theorem World.Matched.filter_newest (h : World.Matched env ⟨b :: heap, s⟩) (ha : b.addr = p) :
    (b :: heap).filter (fun b' => some p != some b'.addr) = heap := by
  subst ha
  rw [List.filter_cons, if_neg (by simp)]
  refine List.filter_eq_self.mpr fun b' hb' => bne_iff_ne.mpr fun he => ?_
  have hslot := h.eq_slot List.mem_cons_self (List.mem_cons_of_mem _ hb') (Option.some.inj he)
  exact (List.nodup_cons.mp h.nodup).1 (List.mem_map.mpr ⟨b', hb', hslot.symm⟩)

theorem Copies.world (hx : env.explicitInit = true ∨ copies = []) (h : World.Matched env ⟨heap, s⟩)
    (hS : ∀ c ∈ copies, ∀ size < env.taskSize,
      s.Serves env (Served env) (s.tls.strdupRequest size c.2))
    (hc : Copies env copies s t) : World.Acts env W ⟨heap, s⟩ ⟨heap, t⟩ := by
  induction hc with
  | nil => exact .refl
  | @cons str site rest s u t p hd hrest ih =>
    have hx := hx.resolve_right (List.cons_ne_nil _ _)
    obtain ⟨size, -, hg⟩ := hd.world (W := W) h fun size hn _ =>
      hS (str, site) List.mem_cons_self size hn
    have hu := hg.forget hx
    refine hu.trans (ih (Or.inl hx) (World.Acts.matched h hu) fun c hc size hn => ?_)
    rw [State.serves_congr hd.tls, hd.tls]
    exact hS c (List.mem_cons_of_mem _ hc) size hn

theorem Initialised.world {q : ℕ} {u v x : State}
    (hx : env.explicitInit = true ∨ w.heap = [] ∧ settings.copies = []) (h : w.Matched env)
    (hp : settings.Passes env) (hi : Initialised env settings w.st q u v x t) :
    World.Acts env W w ⟨w.heap, t⟩ := by
  have set : ∀ {s : State} (cfg : Config) (tls : Tls),
      World.Acts env W ⟨w.heap, s⟩ ⟨w.heap, { s with cfg, tls }⟩ := fun cfg tls =>
    .single (.set (hx.imp_right fun hx => Or.inl hx.1))
  have h₁ : World.Acts env W w ⟨w.heap, w.st.early settings⟩ := set _ _
  have h₂ : World.Acts env W w ⟨w.heap, u⟩ :=
    h₁.trans (hi.copies.world (hx.imp_right And.right) (h₁.matched h) fun c hc size hn =>
      hp.serves (Or.inr ⟨c, hc, size, hn, rfl⟩) rfl)
  have h₃ : World.Acts env W w ⟨w.heap, { u with cfg := settings.cfg }⟩ := h₂.trans (set _ u.tls)
  have hS : State.Serves env (Served env) { u with cfg := settings.cfg }
      (settings.tls.mallocRequest 123 Site.unknown) := hp.serves (Or.inl rfl) hi.copies.tls
  have hg := hi.served.world (W := W) (w := ⟨w.heap, { u with cfg := settings.cfg }⟩)
    (h₃.matched h) hS (show AllocType.malloc ≠ .internal by decide)
  have free : Allocator.free.type ≠ .internal := by decide
  have hw : World.Acts env W w ⟨w.heap, x⟩ := by
    cases hg with
    | nothing hq ha =>
      have hv := h₃.trans ha
      have hf := (World.Acts.matched h hv).filter_self (o := some q) (by
        rintro a ⟨⟩
        exact hq.imp_right And.left)
      have := hv.trans (hi.freed.world (World.Acts.matched h hv) free)
      rwa [hf] at this
    | @block i hq ha =>
      let b : Block := { v.newBlock (settings.tls.mallocRequest 123 Site.unknown) q with slot := i }
      have hv : World.Acts env W w ⟨b :: w.heap, v⟩ :=
        h₃.trans (ha b ⟨rfl, rfl, rfl, rfl, rfl, rfl, rfl⟩ fun _ _ => rfl)
      have hm := World.Acts.matched h hv
      have hd : World.Acts env W ⟨b :: w.heap, v⟩
          ⟨(b :: w.heap).filter fun b => some q != some b.addr, x⟩ := hi.freed.world hm free
      have hf := World.Matched.filter_newest (p := q) hm rfl
      rw [hf] at hd
      exact hv.trans hd
  rw [hi.eq]
  exact hw.tail .initDone

/-- A call is a sequence of steps that ends with the blocks that the run has after it. -/
theorem Call.exec_world (h : w.Matched env) (hc : c.Proper env w.st)
    (hW : ∀ lo hi f, c = .write lo hi f → W w.heap lo hi)
    (hx : ∀ t ∈ c.initSettings w.st, env.explicitInit = true) :
    Post (c.exec env settings)
      (fun p t => World.Acts env W w ⟨w.heapAfter env c p t, t⟩) w.st := by
  have hT := h.safe.tidy
  have serve : ∀ {r : Request} {p : ℕ} {t : State}, (c.start w.st) = w.st →
      c.request env w.st = some r → Served' env r w.st p t → World.Acts env W w
      ⟨(if p = 0 ∨ p = t.nullAddr env then w.heap
        else t.newBlock r p :: w.heap).filter fun b => (none : Option ℕ) != some b.addr, t⟩ := by
    intro r p t hst hr hs
    have hS : w.st.Serves env (Served env) r := by
      have := hc.serves (Or.inl (hst.symm ▸ hr))
      rwa [hst] at this
    exact (hs.world h hS (Call.request_user hc.public hr)).newBlock h nofun
  have silent : ∀ {t : State}, Silents env (fun _ => False) w.st t →
      World.Acts env W w ⟨w.heap.filter fun b => (none : Option ℕ) != some b.addr, t⟩ := by
    intro t ht
    have hs : World.Acts env W w ⟨w.heap, t⟩ := Silents.world (fun _ => False.elim) ht
    rw [h.filter_self (o := none) nofun]
    exact hs
  cases c with
  | malloc size site => exact (malloc_post hT).post fun _ _ hs => serve rfl rfl hs
  | calloc nelem elsize site => exact (calloc_post hT).post fun _ _ hs => serve rfl rfl hs
  | memalign alignment size site => exact (memalign_post hT).post fun _ _ hs => serve rfl rfl hs
  | valloc size site => exact (valloc_post hT).post fun _ _ hs => serve rfl rfl hs
  | new size allocator site =>
    exact (newOperator_post hT hc.public).post fun _ _ hs => serve rfl rfl hs
  | posixMemalign alignment size site =>
    refine Wp.seq (posixMemalign_post hT) fun v t hv => ?_
    rcases hv with ⟨rfl, rfl⟩ | ⟨p, hs, rfl⟩
    · have hw := silent .refl
      have he : w.heapAfter env (.posixMemalign alignment size site) 0 w.st =
          w.heap.filter fun b => (none : Option ℕ) != some b.addr :=
        congrArg (List.filter _) (if_pos (Or.inl rfl))
      rw [← he] at hw
      exact hw
    · have hw := serve (r := w.st.tls.posixMemalignRequest alignment size site) rfl rfl hs
      by_cases hp : p = 0
      · rw [if_neg (not_not.mpr hp)]
        subst hp
        exact hw
      · rw [if_pos hp]
        exact hw
  | strdup str site =>
    refine (strdup_post hT).post fun p t hs => ?_
    obtain ⟨size, he, hg⟩ := hs.world (W := W) h fun size _ he =>
      hc.serves (Or.inl (strdup_request he))
    have hreq : (Call.strdup str site).request env w.st =
        some (w.st.tls.strdupRequest size site) := strdup_request he
    unfold World.heapAfter
    dsimp only
    rw [hreq]
    exact hg.newBlock h nofun
  | realloc oldBuffer newSize site =>
    refine (realloc_post hT).post fun p t hs => ?_
    obtain ⟨u, hr, rfl⟩ := hs
    have h₁ : World.Acts env W w ⟨w.heap, w.st.opened env⟩ :=
      Silents.world (fun _ => False.elim)
        (silents_opened : Silents env (fun _ => False) w.st (w.st.opened env))
    have h₂ := h₁.trans (Realloced.world (w := ⟨w.heap, w.st.opened env⟩) (h₁.matched h)
      (fun r hr => hc.serves (Or.inl hr)) hr)
    exact h₂.trans (Silents.world (fun _ => False.elim)
      (silents_closed : Silents env (fun _ => False) u (u.closed env)))
  | free baseAdr site =>
    exact Wp.seq (free_post hT) fun _ _ hs => hs.world h (by decide)
  | delete ptr allocator site => exact Wp.seq deallocate_post fun _ _ hs => hs.world h hc.public
  | check address =>
    refine Wp.seq check_post ?_
    rintro _ t (rfl | rfl)
    exacts [silent .refl, silent (silents_opened.trans silents_closed)]
  | checkAll =>
    refine Wp.seq checkAll_post ?_
    rintro _ t rfl
    exact silent (silents_opened.trans silents_closed)
  | mallocUsableSize ptr =>
    refine Wp.seq mallocUsableSize_post ?_
    rintro _ t (rfl | rfl)
    exacts [silent .refl, silent (.tail (.single (.list (p := .readWrite) (by decide)))
      (.list (p := .noAccess) (by decide)))]
  | delFrame =>
    refine Wp.seq delFrame_post ?_
    rintro _ t ⟨-, rfl⟩
    exact silent (silents_opened.trans silents_closed)
  | write lo hi f =>
    refine Wp.seq storeRange_post ?_
    rintro _ t rfl
    exact .single (.write (hW lo hi f rfl))
  | set tls =>
    have : World.Acts env W w ⟨w.heap, { w.st with tls }⟩ := .single (.set (Or.inr (Or.inr rfl)))
    have hf := (this.matched h).filter_self (o := none) nofun
    rw [← hf] at this
    exact this
  | init settings =>
    refine Wp.seq (dumaInit_post hT) ?_
    rintro _ t (⟨hi, rfl⟩ | ⟨hi, p, u, v, x, hin⟩)
    · exact .refl
    · have hs : settings ∈ (Call.init settings).initSettings w.st := if_neg (by simp [hi])
      exact hin.world (Or.inl (hx settings hs)) h (hc.init settings hs)

end Call

end Duma

import Duma.Runs.Accept

/-! # The contents of blocks

The abstract heap of a run gives every block its bytes: those it came with, changed by the program's
own writes. The memory of the blocks agrees with it in every state of a run.
-/

namespace Duma

variable {env : Env} {settings : Settings} {w w' : World} {s t : State} {heap : List Block}
  {W : List Block → ℕ → ℕ → Prop} {b b' : Block} {x lo hi p size nelem elsize : ℕ} {sl : Slot}
  {f : ℕ → UInt8} {site : Site}

def Block.Has (b : Block) (x : ℕ) : Prop := b.addr ≤ x ∧ x < b.addr + b.size

/-- Every block has the bytes that the program expects. -/
def World.Reads (w : World) : Prop := ∀ b ∈ w.heap, b.Reads w.st

namespace Block

theorem Reads.of_mem (h : b.Reads s) (hm : ∀ x, b.Has x → t.mem x = s.mem x) : b.Reads t :=
  fun k hk => (h k hk).trans (hm _ ⟨by omega, by omega⟩).symm

theorem Reads.write (h : b.Reads s) : (b.write lo hi f).Reads (s.store lo hi f) := by
  intro k hk
  change (if lo ≤ b.addr + k ∧ b.addr + k < hi then f (b.addr + k) else b.bytes k) =
    if lo ≤ b.addr + k ∧ b.addr + k < hi then f (b.addr + k) else s.mem (b.addr + k)
  rw [h k hk]

end Block

theorem Slot.Carries.inBlock (h : sl.Carries env b) : sl.InBlock x ↔ b.Has x := by
  rw [Slot.InBlock, Block.Has, h.addr, h.size]

namespace World.Matched

variable (h : w.Matched env)
include h

theorem owns (hb : b ∈ w.heap) (hx : b.Has x) : ∃ sl, w.st.slots[b.slot]? = some sl ∧
    sl.Carries env b ∧ sl.Live x ∧ sl.Owns x := by
  obtain ⟨sl, hi, hc, hr, hp, -⟩ := h.slot hb
  have hlive := hp.live_of_inBlock hr (hc.inBlock.mpr hx)
  exact ⟨sl, hi, hc, hlive, hp.owns_of_live hr hlive⟩

theorem eq_of_has (hb : b ∈ w.heap) (hb' : b' ∈ w.heap) (hx : b.Has x) (hx' : b'.Has x) :
    b.slot = b'.slot := by
  obtain ⟨sl, hi, -, -, hown⟩ := h.owns hb hx
  obtain ⟨sl', hi', -, -, hown'⟩ := h.owns hb' hx'
  exact h.safe.core.eq_of_owns hi hi' hown hown'

theorem disjoint : w.heap.Pairwise fun b b' => ∀ x, ¬ (b.Has x ∧ b'.Has x) := by
  refine (List.pairwise_map.mp h.nodup).imp_of_mem fun hb hb' hne x hx => ?_
  exact hne (h.eq_of_has hb hb' hx.1 hx.2)

end World.Matched

section Step

theorem World.Reads.of_owns (hr : World.Reads ⟨heap, s⟩) (h : World.Matched env ⟨heap, s⟩)
    (hm : ∀ ⦃k : ℕ⦄ ⦃sl : Slot⦄ ⦃x : ℕ⦄, s.slots[k]? = some sl → sl.IsUser → sl.Owns x →
      t.mem x = s.mem x) : World.Reads ⟨heap, t⟩ := fun b hb =>
  (hr b hb).of_mem fun x hx => by
    obtain ⟨sl, hi, hc, -, hown⟩ := h.owns hb hx
    exact hm hi hc.user hown

theorem World.Reads.fill (hr : World.Reads ⟨b :: heap, s⟩) (h : World.Matched env ⟨b :: heap, s⟩)
    (hin : lo < hi → b.addr ≤ lo ∧ hi ≤ b.addr + b.size) (hb' : b'.Reads (s.store lo hi f)) :
    World.Reads ⟨b' :: heap, s.store lo hi f⟩ := by
  intro c hc
  rcases List.mem_cons.mp hc with rfl | hc
  · exact hb'
  refine (hr c (List.mem_cons_of_mem _ hc)).of_mem fun x hx => if_neg fun hlt => ?_
  obtain ⟨h1, h2⟩ := hin (by omega)
  exact List.rel_of_pairwise_cons h.disjoint hc x ⟨⟨by omega, by omega⟩, hx⟩

/-- Every step keeps the bytes of the blocks. -/
theorem World.Act.reads (h : w.Matched env) (hr : w.Reads) (ha : World.Act env W w w') :
    w'.Reads := by
  cases ha with
  | silent hok hs => exact hr.of_owns h fun k sl x hi hu hx =>
      (hs.calm hok h.safe.core).keeps.mem hi hu hx
  | @take heap s t n al i r l b hS hu ht hb hnew =>
    obtain ⟨sl, new, hT⟩ := ht.taken h.safe.core hS
    have ht' := h.safe.take hS hu ht
    intro c hc
    rcases List.mem_cons.mp hc with rfl | hc
    · exact hnew
    refine (hr c hc).of_mem fun x hx => hT.mem fun hk => ?_
    obtain ⟨sl', hi, hcar, -, hown⟩ := h.owns hc hx
    have hne : i ≠ c.slot := by
      rintro rfl
      obtain rfl := Option.some.inj (hi.symm.trans hT.old)
      have hfree := hT.free
      rw [hcar.user.1] at hfree
      cases hfree
    have hi' : t.slots[c.slot]? = some sl' := (hT.slot c.slot).trans ((if_neg hne).trans hi)
    have hnew' : t.slots[i]? = some new := (hT.slot i).trans (if_pos rfl)
    exact hne (ht'.core.eq_of_owns hnew' hi' (hT.placed.owns_of_live hT.region' hk.1) hown)
  | @release heap s t i sl site hi hu hrel =>
    have hk := hrel.keepsOthers h.safe.core hi (hu.1.trans_ne (by decide))
    intro c hc
    obtain ⟨hc, hne⟩ := List.mem_filter.mp hc
    refine (hr c hc).of_mem fun x hx => ?_
    obtain ⟨sl', hi', hcar, -, hown⟩ := h.owns hc hx
    refine hk.mem (fun he => ?_) hi' hcar.user hown
    obtain rfl := Option.some.inj (hi'.symm.trans (he ▸ hi))
    exact (bne_iff_ne.mp hne) (by rw [hcar.addr])
  | fill hb hin hnew => exact hr.fill h hin hnew
  | write =>
    intro c hc
    obtain ⟨b, hb, rfl⟩ := List.mem_map.mp hc
    exact (hr b hb).write
  | forget => exact fun c hc => hr c (List.mem_cons_of_mem _ hc)
  | set => exact fun c hc => hr c hc
  | initDone => exact fun c hc => hr c hc

theorem Run.keeps {P : World → Prop} (hset : settings.Proper env) (h0 : ∀ s, P ⟨[], s⟩)
    (hP : ∀ {w w' : World}, w.Matched env → P w → World.Act env (fun _ _ _ => True) w w' → P w')
    (hw : Run env settings w) : P w := by
  have acts : ∀ {w w' : World}, w.Matched env → P w → World.Acts env (fun _ _ _ => True) w w' →
      P w' := by
    intro w w' hm hw ha
    induction ha with
    | refl => exact hw
    | tail hs ha ih => exact hP (World.Acts.matched hm hs) ih ha
  induction hw with
  | start h => exact h0 _
  | @step w w' c hw hA h ih =>
    obtain ⟨he⟩ := h
    have hpub : Reach env settings (fun _ c => c.Public) w := hw.mono _ _ fun _ _ h => h.public
    have hm := Run.matched hset hw
    exact acts hm ih ((Call.exec_world (W := fun _ _ _ => True) hm hA (fun _ _ _ _ => trivial)
      fun u hu => hpub.explicit hu).returns he)

/-- In every state of a run the blocks have the bytes that the program expects. -/
theorem Run.reads (hset : settings.Proper env) (hw : Run env settings w) : w.Reads :=
  hw.keeps hset (fun _ _ hb => absurd hb List.not_mem_nil) fun hm hr ha => ha.reads hm hr

end Step

section Calls

theorem World.Matched.write_returns (h : w.Matched env)
    (hin : ∀ x, lo ≤ x → x < hi → ∃ b ∈ w.heap, b.Has x) :
    (∀ x, lo ≤ x → x < hi → x < w.st.allocList ∨ w.st.allocList + w.st.allocListSize ≤ x) ∧
      (Call.write lo hi f).exec env settings w.st = .ok 0 (w.st.store lo hi f) := by
  have hapart : ∀ x, lo ≤ x → x < hi →
      x < w.st.allocList ∨ w.st.allocList + w.st.allocListSize ≤ x := by
    intro x h1 h2
    obtain ⟨b, hb, hx⟩ := hin x h1 h2
    obtain ⟨sl, hi', hc, -, hown⟩ := h.owns hb hx
    have := h.safe.core.list_apart hi' hc.user.not_isList (Nat.lt_succ_self x) fun y h3 h4 => by
      obtain rfl : y = x := by omega
      exact hown
    omega
  refine ⟨hapart, ?_⟩
  have hwp : Wp (storeRange env lo hi f) (fun _ t => t = w.st.store lo hi f) (fun _ _ => False)
      w.st := by
    refine Wp.mono (storeRange_under (B := True) (A := fun _ => False) fun _ => ⟨fun x h1 h2 => ?_,
      fun hlt => ?_⟩) (fun _ _ => id) fun _ _ h => h trivial
    · obtain ⟨b, hb, hx⟩ := hin x h1 h2
      obtain ⟨sl, hi', hc, hlive, -⟩ := h.owns hb hx
      exact h.safe.live hi' hc.user hlive
    · by_contra hcon
      have := hapart (max lo w.st.allocList) (by omega) (by omega)
      obtain ⟨l, sl, -, -, -, -, -, hpos, -⟩ := h.safe.core.list_slot
      omega
  obtain ⟨⟨⟩, t, he, rfl⟩ := hwp.eq_ok
  exact Wp.bind_of_ok he

theorem Served'.filled {r : Request} (h : Safe env s) (hr : r.Proper env s)
    (hu : r.allocator.type ≠ .internal) (hs : Served' env r s p t) (hp : p ≠ 0)
    (hf : r.fillByte ≠ -1) : ∀ k < r.userSize, t.mem (p + k) = UInt8.ofInt r.fillByte := by
  intro k hk
  obtain ⟨i, new, hP⟩ := hs.provided h hr.serves hu hp (Or.inl (by omega))
  exact hP.fill hf ⟨by rw [hP.addr]; omega, by rw [hP.addr, hP.userSize]; omega⟩

/-- The allocator refines a heap of disjoint blocks with their bytes, which no step but the
program's own writes changes. -/
theorem heap_refined (hset : settings.Proper env)
    (hw : Reach env settings (fun w c => c.Tame env w) w) :
    (w.heap.Pairwise fun b b' => ∀ x, ¬ (b.Has x ∧ b'.Has x)) ∧
    (∀ b ∈ w.heap, ∀ k < b.size, w.st.mem (b.addr + k) = b.bytes k) ∧
    (∀ lo hi f, (Call.write lo hi f).Tame env w →
      (∀ x, lo ≤ x → x < hi → x < w.st.allocList ∨ w.st.allocList + w.st.allocListSize ≤ x) ∧
      (Call.write lo hi f).exec env settings w.st = .ok 0 (w.st.store lo hi f)) ∧
    (∀ size site p t, (Call.malloc size site).Tame env w →
      malloc env settings size site w.st = .ok p t → p ≠ 0 →
        0 ≤ w.st.tls.fill → w.st.tls.fill < 256 →
          ∀ k < size, t.mem (p + k) = UInt8.ofInt w.st.tls.fill) ∧
    ∀ nelem elsize site p t, (Call.calloc nelem elsize site).Tame env w →
      calloc env settings nelem elsize site w.st = .ok p t → p ≠ 0 → nelem * elsize < 2 ^ 64 →
        ∀ k < nelem * elsize, t.mem (p + k) = 0 := by
  have hrun : Run env settings w := hw.mono _ _ fun _ _ h => h.proper
  have hm := Run.matched hset hrun
  refine ⟨hm.disjoint, fun b hb k hk => (Run.reads hset hrun b hb k hk).symm,
    fun lo hi f hc => hm.write_returns (hc.write lo hi f rfl), ?_, ?_⟩
  · intro size site p t hc he hp h0 hlt
    have hs := (malloc_post hm.safe.tidy).returns he
    refine hs.filled hm.safe (hc.proper.request _ rfl) nofun hp fun hf => ?_
    have hf : w.st.tls.fill = -1 := hf
    omega
  · intro nelem elsize site p t hc he hp hlt
    have hs := (calloc_post hm.safe.tidy).returns he
    have hr : (w.st.tls.callocRequest nelem elsize site).Proper env w.st :=
      hc.proper.request _ rfl
    have hn : (w.st.tls.callocRequest nelem elsize site).userSize = nelem * elsize :=
      Word.mul_eq hlt
    intro k hk
    exact hs.filled hm.safe hr nofun hp (show (0 : ℤ) ≠ -1 by decide) k (hn ▸ hk)

/-- A run with a write to a block. -/
theorem heap_refined_sample : ∃ w b, Reach Env.sample (Settings.sample (-1) (-1))
    (fun w c => c.Tame Env.sample w) w ∧ b ∈ w.heap ∧ b.bytes 4 = 7 ∧
      w.st.mem (b.addr + 4) = b.bytes 4 := by
  obtain ⟨w, hw, hp⟩ := @Reach.tame Env.sample (Settings.sample (-1) (-1))
    [.malloc 100 Site.unknown, .calloc 4 5 Site.unknown, .write 33558420 33558421 fun _ => 7]
    (fun w => w.heap.any fun b => decide (b.size = 100 ∧ b.bytes 4 = 7)) (by decide +kernel)
  obtain ⟨b, hb, h⟩ := List.any_eq_true.mp hp
  obtain ⟨hn, h7⟩ := of_decide_eq_true h
  obtain ⟨-, hread, -⟩ := heap_refined (Settings.sample_proper _ _) hw
  exact ⟨w, b, hw, hb, h7, hread b hb 4 (by omega)⟩

end Calls

end Duma

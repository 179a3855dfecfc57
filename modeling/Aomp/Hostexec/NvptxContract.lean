import Aomp.Hostexec.NvptxStack
import Aomp.Hostexec.PacketOwnership

/-!
# When the stack on nvptx keeps its contract

In quiet runs each step keeps an invariant: the packets of the stack hang off its top with
their present tags, and every other packet is held by one wave.
-/
namespace Aomp.Hostexec

open Foundations

variable {cfg : Config} {s s' : StackState cfg} {next next' : ℕ → Word} {rc rc' : ℕ → ℕ}
  {xs xs' : List ℕ} {t t' : Caller} {w : Fin cfg.waves}

/-- What holds of one wave. -/
structure CallerInv (cfg : Config) (next : ℕ → Word) (rc : ℕ → ℕ) (xs : List ℕ) (t : Caller) :
    Prop where
  held : t.holds = true → cfg.index t.packet_ptr < cfg.num_packets ∧
    t.packet_ptr = cfg.ptr (cfg.index t.packet_ptr) (rc (cfg.index t.packet_ptr)) ∧
    cfg.index t.packet_ptr ∉ xs
  popping : ∀ p, t.pc = .pop p → t.holds = false ∧ t.swaps = 0
  loaded : t.pc = .pop .next ∨ t.pc = .pop .cas → cfg.index t.F < cfg.num_packets ∧
    t.F = cfg.ptr (cfg.index t.F) t.seen ∧ t.seen ≤ rc (cfg.index t.F)
  linked : t.pc = .pop .cas → rc (cfg.index t.F) = t.seen → cfg.index t.F ∈ xs →
    next (cfg.index t.F) = t.N
  loading : t.pc = .push .load → t.holds = true ∧ t.swaps = 0
  pushing : t.pc = .push .link ∨ t.pc = .push .cas →
    t.holds = true ∧ t.swaps = 0 ∨ t.holds = false ∧ t.swaps = 1 ∧ t.F = 0#64
  link : t.pc = .push .cas → t.holds = true → next (cfg.index t.packet_ptr) = t.F

structure StackInv (s : StackState cfg) (xs : List ℕ) : Prop where
  chain : Linked 0#64 (fun i => cfg.ptr i (s.recycled i)) s.next s.top xs
  nodup : xs.Nodup
  lt : ∀ i ∈ xs, i < cfg.num_packets
  caller : ∀ v, CallerInv cfg s.next s.recycled xs (s.callers v)
  inj : ∀ v v' i, s.Holds v i → s.Holds v' i → v = v'
  cover : ∀ i < cfg.num_packets, i ∉ xs → ∃ v, s.Holds v i
  returned : ∀ k ∈ s.returned, k = 1

theorem StackInv.of_start (h : s.Start) : ∃ xs, StackInv s xs := by
  obtain ⟨xs, hchain, hnodup, hxs, hcover⟩ := h.chain
  refine ⟨xs, hchain, hnodup, fun i hi => (hxs i hi).1, fun v => ?_, h.inj, hcover, ?_⟩
  · have hidle := h.idle v
    refine ⟨fun hh => ⟨(h.held v hh).1, (h.held v hh).2, fun hmem => ?_⟩, ?_, ?_, ?_, ?_, ?_, ?_⟩
    · exact (hxs _ hmem).2 v ⟨hh, rfl⟩
    all_goals simp [hidle]
  · simp [h.returned]

theorem StackInv.walk (h : StackInv s xs) : s.Walk xs :=
  h.chain.visits (fun i hi => cfg.ptr_ne_zero (h.lt i hi) _) fun i hi => cfg.index_ptr (h.lt i hi) _

theorem StackInv.contract (h : StackInv s xs) : s.Contract := by
  refine ⟨h.returned, xs, h.walk, h.nodup, fun i hi => ?_⟩
  by_cases hmem : i ∈ xs
  · refine .inl ⟨hmem, fun v hv => ?_⟩
    obtain ⟨hholds, rfl⟩ := hv
    exact ((h.caller v).held hholds).2.2 hmem
  · obtain ⟨v, hv⟩ := h.cover i hi hmem
    exact .inr ⟨hmem, v, hv, fun v' hv' => h.inj v' v i hv' hv⟩

/-- A wave keeps what it knows when its packet is untouched and a packet that stays on the
stack without being recycled keeps its link. -/
theorem CallerInv.frame (h : CallerInv cfg next rc xs t)
    (hown : t.holds = true → rc' (cfg.index t.packet_ptr) = rc (cfg.index t.packet_ptr) ∧
      next' (cfg.index t.packet_ptr) = next (cfg.index t.packet_ptr) ∧
      (cfg.index t.packet_ptr ∈ xs' → cfg.index t.packet_ptr ∈ xs))
    (hpop : ∀ i, rc i ≤ rc' i ∧ (rc' i = rc i → i ∈ xs' → i ∈ xs ∧ next' i = next i)) :
    CallerInv cfg next' rc' xs' t where
  held hh := by
    obtain ⟨hi, hptr, hmem⟩ := h.held hh
    rw [(hown hh).1]
    exact ⟨hi, hptr, fun hmem' => hmem ((hown hh).2.2 hmem')⟩
  popping := h.popping
  loaded hpc := ⟨(h.loaded hpc).1, (h.loaded hpc).2.1, (h.loaded hpc).2.2.trans (hpop _).1⟩
  linked hpc hseen hmem := by
    have hle := (h.loaded (.inr hpc)).2.2
    have hge := (hpop (cfg.index t.F)).1
    obtain ⟨hmem', hnext⟩ := (hpop _).2 (by omega) hmem
    rw [hnext]
    exact h.linked hpc (by omega) hmem'
  loading := h.loading
  pushing := h.pushing
  link hpc hh := by
    rw [(hown hh).2.1]
    exact h.link hpc hh

theorem StackState.holds_update {s' : StackState cfg}
    (hcallers : s'.callers = Function.update s.callers w t)
    {v : Fin cfg.waves} {k : ℕ} : s'.Holds v k ↔
      if v = w then t.holds = true ∧ cfg.index t.packet_ptr = k else s.Holds v k := by
  unfold StackState.Holds
  rw [hcallers]
  by_cases hv : v = w
  · subst hv
    simp
  · simp [hv]

theorem StackState.holds_same {s' : StackState cfg}
    (hcallers : s'.callers = Function.update s.callers w t)
    (hholds : t.holds = (s.callers w).holds)
    (hptr : t.holds = true → t.packet_ptr = (s.callers w).packet_ptr) {v : Fin cfg.waves} {k : ℕ} :
    s'.Holds v k ↔ s.Holds v k := by
  rw [StackState.holds_update hcallers]
  by_cases hv : v = w
  · subst hv
    rw [if_pos rfl, StackState.Holds, ← hholds]
    exact and_congr_right fun hheld => by rw [hptr hheld]
  · rw [if_neg hv]

theorem StackInv.setCaller (h : StackInv s xs) (ht : CallerInv cfg s.next s.recycled xs t)
    (hholds : t.holds = (s.callers w).holds) (hptr : t.packet_ptr = (s.callers w).packet_ptr) :
    StackInv (s.setCaller w t) xs := by
  have hsame : ∀ v i, (s.setCaller w t).Holds v i ↔ s.Holds v i := fun v i =>
    StackState.holds_same rfl hholds fun _ => hptr
  refine ⟨h.chain, h.nodup, h.lt, fun v => ?_, fun v v' i hv hv' => ?_, fun i hi hmem => ?_, h.returned⟩
  · by_cases hv : v = w
    · subst hv
      simpa using ht
    · simpa [Function.update_of_ne hv] using h.caller v
  · exact h.inj v v' i ((hsame v i).mp hv) ((hsame v' i).mp hv')
  · obtain ⟨v, hv⟩ := h.cover i hi hmem
    exact ⟨v, (hsame v i).mpr hv⟩

theorem StackInv.top_eq (h : StackInv s xs) (hw : (s.callers w).holds = false) :
    ∃ i rest, xs = i :: rest ∧ i < cfg.num_packets ∧ s.top = cfg.ptr i (s.recycled i) ∧
      Linked 0#64 (fun i => cfg.ptr i (s.recycled i)) s.next (s.next i) rest := by
  obtain ⟨k, hk, hnone⟩ := exists_not_held cfg (fun v => (s.callers v).holds = true)
    (fun v => cfg.index (s.callers v).packet_ptr) (w := w) (by simp [hw])
  cases xs with
  | nil =>
    obtain ⟨v, hv, hidx⟩ := h.cover k hk List.not_mem_nil
    exact absurd hidx (hnone v hv)
  | cons i rest => exact ⟨i, rest, rfl, h.lt i List.mem_cons_self, h.chain.1, h.chain.2⟩

theorem StackInv.popLoad (h : StackInv s xs) (hpc : (s.callers w).pc = .pop .load) :
    StackInv (s.setCaller w { s.callers w with
      pc := .pop .next, F := s.top, seen := s.recycled (cfg.index s.top) }) xs := by
  obtain ⟨hholds, hswaps⟩ := (h.caller w).popping _ hpc
  obtain ⟨i, rest, rfl, hi, htop, -⟩ := h.top_eq hholds
  have hidx : cfg.index s.top = i := by rw [htop, cfg.index_ptr hi]
  refine h.setCaller ⟨(h.caller w).held, fun _ _ => ⟨hholds, hswaps⟩, fun _ => ?_, ?_, ?_, ?_, ?_⟩ rfl rfl
  · dsimp only
    rw [hidx]
    exact ⟨hi, htop, le_rfl⟩
  all_goals simp

theorem StackInv.popNext (h : StackInv s xs) (hpc : (s.callers w).pc = .pop .next) :
    StackInv (s.setCaller w { s.callers w with
      pc := .pop .cas, N := s.next (cfg.index (s.callers w).F) }) xs := by
  have hpop := (h.caller w).popping _ hpc
  have hloaded := (h.caller w).loaded (.inl hpc)
  refine h.setCaller ⟨(h.caller w).held, fun _ _ => hpop, fun _ => hloaded, fun _ _ _ => rfl, ?_, ?_, ?_⟩
    rfl rfl
  all_goals simp

/-- The compare-and-swap of `pop` finds the top that was loaded, and takes it. -/
theorem StackInv.popTake (h : StackInv s xs) (hwrap : s.NoTagWrap) (hpc : (s.callers w).pc = .pop .cas)
    (htop : s.top = (s.callers w).F) : ∃ i rest, xs = i :: rest ∧ cfg.index (s.callers w).F = i ∧
      StackInv { s with
        top := (s.callers w).N
        callers := Function.update s.callers w { s.callers w with
          pc := .idle, packet_ptr := (s.callers w).F, holds := true, swaps := 1 }
        returned := 1 :: s.returned } rest := by
  obtain ⟨hholds, -⟩ := (h.caller w).popping _ hpc
  obtain ⟨i, rest, rfl, hi, htopi, hrest⟩ := h.top_eq hholds
  obtain ⟨-, hF, hseen⟩ := (h.caller w).loaded (.inr hpc)
  have hidx : cfg.index (s.callers w).F = i := by rw [← htop, htopi, cfg.index_ptr hi]
  have hbound := hwrap w (.inr hpc)
  have hlinked := (h.caller w).linked hpc
  rw [hidx] at hF hseen hbound hlinked
  -- the tag still is the tag of the load, so the packet was not recycled since
  obtain ⟨-, hrc⟩ := packetPtr_eq_of_lt_period cfg.is_lt (cfg.fits hi) (cfg.fits hi)
    (hF.symm.trans (htop.symm.trans htopi)) hseen hbound
  have hN : s.next i = (s.callers w).N := hlinked hrc.symm List.mem_cons_self
  obtain ⟨hnot, hnodup⟩ := List.nodup_cons.mp h.nodup
  have hheld : ∀ v k, s.Holds v k → v ≠ w ∧ k ≠ i := by
    rintro v k ⟨hv, rfl⟩
    refine ⟨fun hvw => ?_, fun hki => ?_⟩
    · rw [hvw, hholds] at hv
      cases hv
    · exact ((h.caller v).held hv).2.2 (hki ▸ List.mem_cons_self)
  refine ⟨i, rest, rfl, hidx, hN ▸ hrest, hnodup, fun k hk => h.lt k (List.mem_cons_of_mem i hk),
    fun v => ?_, fun v v' k hv hv' => ?_, fun k hk hmem => ?_, ?_⟩
  · by_cases hv : v = w
    · subst hv
      dsimp only
      rw [Function.update_self]
      refine ⟨fun _ => ?_, ?_, ?_, ?_, ?_, ?_, ?_⟩
      · dsimp only
        rw [hidx]
        exact ⟨hi, htop.symm.trans htopi, hnot⟩
      all_goals simp
    · dsimp only
      rw [Function.update_of_ne hv]
      exact (h.caller v).frame (fun _ => ⟨rfl, rfl, List.mem_cons_of_mem i⟩)
        fun k => ⟨le_rfl, fun _ hk => ⟨List.mem_cons_of_mem i hk, rfl⟩⟩
  · rw [StackState.holds_update rfl] at hv hv'
    by_cases hvw : v = w <;> by_cases hvw' : v' = w
    · rw [hvw, hvw']
    · rw [if_pos hvw] at hv
      rw [if_neg hvw'] at hv'
      exact absurd (hv.2.symm.trans hidx) (hheld v' k hv').2
    · rw [if_neg hvw] at hv
      rw [if_pos hvw'] at hv'
      exact absurd (hv'.2.symm.trans hidx) (hheld v k hv).2
    · rw [if_neg hvw] at hv
      rw [if_neg hvw'] at hv'
      exact h.inj v v' k hv hv'
  · by_cases hki : k = i
    · refine ⟨w, ?_⟩
      rw [StackState.holds_update rfl, if_pos rfl]
      exact ⟨rfl, hidx.trans hki.symm⟩
    · obtain ⟨v, hv⟩ := h.cover k hk (by simp [hki, hmem])
      refine ⟨v, ?_⟩
      rw [StackState.holds_update rfl, if_neg (hheld v k hv).1]
      exact hv
  · exact List.forall_mem_cons.mpr ⟨rfl, h.returned⟩

theorem StackInv.pushLoad (h : StackInv s xs) (hpc : (s.callers w).pc = .push .load) :
    StackInv (s.setCaller w { s.callers w with pc := .push .link, F := s.top }) xs := by
  obtain ⟨hholds, hswaps⟩ := (h.caller w).loading hpc
  refine h.setCaller ⟨(h.caller w).held, ?_, ?_, ?_, ?_, fun _ => .inl ⟨hholds, hswaps⟩, ?_⟩ rfl rfl
  all_goals simp

theorem StackInv.index_inc (h : StackInv s xs) (hw : (s.callers w).holds = true) :
    cfg.index (incPtrTag (s.callers w).packet_ptr cfg.is) = cfg.index (s.callers w).packet_ptr := by
  obtain ⟨hi, hptr, -⟩ := (h.caller w).held hw
  rw [hptr, cfg.incPtrTag_ptr hi, cfg.index_ptr hi, cfg.index_ptr hi]

theorem StackInv.pushLink (h : StackInv s xs) (hpc : (s.callers w).pc = .push .link)
    (hholds : (s.callers w).holds = true) (hswaps : (s.callers w).swaps = 0) :
    StackInv ({ s with
        next := Function.update s.next (cfg.index (incPtrTag (s.callers w).packet_ptr cfg.is))
          (s.callers w).F }.setCaller w { s.callers w with pc := .push .cas }) xs := by
  obtain ⟨hi, hptr, hnot⟩ := (h.caller w).held hholds
  rw [h.index_inc hholds]
  have hother : ∀ {k}, k ≠ cfg.index (s.callers w).packet_ptr → Function.update s.next
      (cfg.index (s.callers w).packet_ptr) (s.callers w).F k = s.next k :=
    fun hk => Function.update_of_ne hk _ _
  have hlinked : StackInv { s with
      next := Function.update s.next (cfg.index (s.callers w).packet_ptr) (s.callers w).F } xs := by
    refine ⟨h.chain.write_next hnot _, h.nodup, h.lt, fun v => ?_, h.inj, h.cover, h.returned⟩
    by_cases hv : v = w
    · subst hv
      refine ⟨fun _ => ⟨hi, hptr, hnot⟩, ?_, ?_, ?_, ?_, fun _ => .inl ⟨hholds, hswaps⟩, ?_⟩
      all_goals simp [hpc]
    · refine (h.caller v).frame (fun hh => ⟨rfl, hother fun he => hv ?_, id⟩)
        fun k => ⟨le_rfl, fun _ hk => ⟨hk, hother ?_⟩⟩
      · exact h.inj v w _ ⟨hh, he⟩ ⟨hholds, rfl⟩
      · rintro rfl
        exact hnot hk
  refine hlinked.setCaller ⟨fun _ => ⟨hi, hptr, hnot⟩, ?_, ?_, ?_, ?_, fun _ => .inl ⟨hholds, hswaps⟩,
    fun _ _ => Function.update_self _ _ _⟩ rfl rfl
  all_goals simp

theorem StackInv.pushRelink (h : StackInv s xs) (hholds : (s.callers w).holds = false)
    (hswaps : (s.callers w).swaps = 1) (hF : (s.callers w).F = 0#64)
    (hnext : s.next (cfg.index (incPtrTag (s.callers w).packet_ptr cfg.is)) = 0#64) :
    StackInv ({ s with
        next := Function.update s.next (cfg.index (incPtrTag (s.callers w).packet_ptr cfg.is))
          (s.callers w).F }.setCaller w { s.callers w with pc := .push .cas }) xs := by
  rw [hF, ← hnext, Function.update_eq_self]
  refine h.setCaller ⟨by simp [hholds], ?_, ?_, ?_, ?_, fun _ => .inr ⟨hholds, hswaps, hF⟩, ?_⟩ rfl rfl
  all_goals simp [hholds]

/-- The swap of `push`; `t` is the wave afterwards. -/
theorem StackInv.pushSwap (h : StackInv s xs) (hpc : (s.callers w).pc = .push .cas)
    (hholds : (s.callers w).holds = true) (htop : s.top = (s.callers w).F) (ht : t.holds = false)
    (htpc : t.pc = .idle ∨ t.pc = .push .link ∧ t.swaps = 1 ∧ t.F = 0#64) {calls : List ℕ}
    (hcalls : ∀ k ∈ calls, k = 1) :
    StackInv { s with
      top := incPtrTag (s.callers w).packet_ptr cfg.is
      callers := Function.update s.callers w t
      recycled := Function.update s.recycled (cfg.index (s.callers w).packet_ptr)
        (s.recycled (cfg.index (s.callers w).packet_ptr) + 1)
      returned := calls } (cfg.index (s.callers w).packet_ptr :: xs) := by
  obtain ⟨hi, hptr, hnot⟩ := (h.caller w).held hholds
  have hlink := (h.caller w).link hpc hholds
  set i := cfg.index (s.callers w).packet_ptr with hidx
  have hself : Function.update s.recycled i (s.recycled i + 1) i = s.recycled i + 1 :=
    Function.update_self _ _ _
  have hrc : ∀ {k}, k ≠ i → Function.update s.recycled i (s.recycled i + 1) k = s.recycled k :=
    fun hk => Function.update_of_ne hk _ _
  have htag : incPtrTag (s.callers w).packet_ptr cfg.is = cfg.ptr i (s.recycled i + 1) := by
    rw [hptr, cfg.incPtrTag_ptr hi]
  have hheld : ∀ {v k}, v ≠ w → s.Holds v k → k ≠ i := by
    rintro v k hv hvk rfl
    exact hv (h.inj v w _ hvk ⟨hholds, rfl⟩)
  have hupdate : ∀ {v k}, StackState.Holds { s with
      top := incPtrTag (s.callers w).packet_ptr cfg.is
      callers := Function.update s.callers w t
      recycled := Function.update s.recycled i (s.recycled i + 1)
      returned := calls } v k ↔ v ≠ w ∧ s.Holds v k := by
    intro v k
    rw [StackState.holds_update rfl]
    simp [ht]
  refine ⟨⟨?_, ?_⟩, List.nodup_cons.mpr ⟨hnot, h.nodup⟩, ?_, fun v => ?_, fun v v' k hv hv' => ?_,
    fun k hk hmem => ?_, hcalls⟩
  · dsimp only
    rw [hself, htag]
  · rw [hlink, ← htop]
    exact h.chain.congr (fun k hk => congrArg _ (hrc fun he => hnot (he ▸ hk))) fun _ _ => rfl
  · exact List.forall_mem_cons.mpr ⟨hi, h.lt⟩
  · by_cases hv : v = w
    · subst hv
      dsimp only
      rw [Function.update_self]
      rcases htpc with hidle | ⟨hlinkpc, hswaps, hF⟩
      · refine ⟨?_, ?_, ?_, ?_, ?_, ?_, ?_⟩
        all_goals simp [ht, hidle]
      · refine ⟨?_, ?_, ?_, ?_, ?_, fun _ => .inr ⟨ht, hswaps, hF⟩, ?_⟩
        all_goals simp [ht, hlinkpc]
    · dsimp only
      rw [Function.update_of_ne hv]
      refine (h.caller v).frame (fun hh => ?_) fun k => ?_
      · have hne := hheld hv ⟨hh, rfl⟩
        exact ⟨hrc hne, rfl, fun hm => (List.mem_cons.mp hm).resolve_left hne⟩
      · by_cases hk : k = i
        · subst hk
          rw [hself]
          exact ⟨Nat.le_succ _, fun heq => absurd heq (Nat.succ_ne_self _)⟩
        · rw [hrc hk]
          exact ⟨le_rfl, fun _ hm => ⟨(List.mem_cons.mp hm).resolve_left hk, rfl⟩⟩
  · exact h.inj v v' k (hupdate.mp hv).2 (hupdate.mp hv').2
  · simp only [List.mem_cons, not_or] at hmem
    obtain ⟨v, hv⟩ := h.cover k hk hmem.2
    refine ⟨v, hupdate.mpr ⟨?_, hv⟩⟩
    rintro rfl
    exact hmem.1 hv.2.symm

theorem StackInv.pushDone (h : StackInv s xs) (hholds : (s.callers w).holds = false)
    (ht : t.pc = .idle) (hth : t.holds = false) {calls : List ℕ} (hcalls : ∀ k ∈ calls, k = 1) :
    StackInv { s with callers := Function.update s.callers w t, returned := calls } xs := by
  have hupdate : ∀ {v k}, StackState.Holds { s with
      callers := Function.update s.callers w t, returned := calls } v k ↔ s.Holds v k :=
    StackState.holds_same rfl (hth.trans hholds.symm) fun hheld => by simp [hth] at hheld
  refine ⟨h.chain, h.nodup, h.lt, fun v => ?_, fun v v' k hv hv' => h.inj v v' k (hupdate.mp hv)
    (hupdate.mp hv'), fun k hk hmem => ?_, hcalls⟩
  · by_cases hv : v = w
    · subst hv
      dsimp only
      rw [Function.update_self]
      refine ⟨?_, ?_, ?_, ?_, ?_, ?_, ?_⟩
      all_goals simp [ht, hth]
    · dsimp only
      rw [Function.update_of_ne hv]
      exact h.caller v
  · obtain ⟨v, hv⟩ := h.cover k hk hmem
    exact ⟨v, hupdate.mpr hv⟩

/-- What a step changes about the packets of the stack. -/
def Moves (s : StackState cfg) (a : StackAction cfg) (xs xs' : List ℕ) : Prop :=
  match a with
  | .next w =>
    match (s.callers w).pc with
    | .pop .cas => xs = cfg.index (s.callers w).F :: xs'
    | .push .cas =>
      xs' = if (s.callers w).swaps = 0 then cfg.index (s.callers w).packet_ptr :: xs else xs
    | _ => xs' = xs
  | _ => xs' = xs

theorem StackInv.popCas (h : StackInv s xs) (hwrap : s.NoTagWrap) (hpc : (s.callers w).pc = .pop .cas)
    (htop : s.top = (s.callers w).F) (hstep : callerStep s w = some s') :
    ∃ rest, xs = cfg.index (s.callers w).F :: rest ∧ StackInv s' rest := by
  obtain ⟨hi, hF, -⟩ := (h.caller w).loaded (.inr hpc)
  have hne : (s.callers w).F ≠ 0#64 := by
    rw [hF]
    exact cfg.ptr_ne_zero hi _
  have hswaps := ((h.caller w).popping _ hpc).2
  obtain ⟨i, rest, hxs, hidx, hinv⟩ := h.popTake hwrap hpc htop
  simp [callerStep, hpc, atomic64CASNvptx, htop, hne, hswaps] at hstep
  exact ⟨rest, hidx ▸ hxs, hstep ▸ hinv⟩

theorem StackInv.pushCas (h : StackInv s xs) (hpc : (s.callers w).pc = .push .cas)
    (hquiet : s.Quiet (.next w)) (hstep : callerStep s w = some s') :
    StackInv s' (if (s.callers w).swaps = 0 then cfg.index (s.callers w).packet_ptr :: xs else xs) := by
  simp only [StackState.Quiet, hpc] at hquiet
  rcases (h.caller w).pushing (.inr hpc) with ⟨hholds, hswaps⟩ | ⟨hholds, hswaps, hF⟩
  · rw [if_pos hswaps] at hquiet ⊢
    by_cases hne : (s.callers w).F = 0#64
    · -- the swap succeeds, but the wrapper returns the old value 0
      simp [callerStep, hpc, atomic64CASNvptx, hquiet, hne, hswaps] at hstep
      subst hstep
      refine h.pushSwap hpc hholds hquiet ?_ (.inr ⟨rfl, rfl, rfl⟩) h.returned
      simp
    · simp [callerStep, hpc, atomic64CASNvptx, hquiet, hne, hswaps] at hstep
      subst hstep
      refine h.pushSwap hpc hholds hquiet ?_ (.inl ?_) (List.forall_mem_cons.mpr ⟨rfl, h.returned⟩)
      · simp
      · simp
  · rw [if_neg (by omega)] at hquiet ⊢
    have hne : ¬ s.top = (s.callers w).F := fun he => hquiet (he.trans hF)
    simp [callerStep, hpc, atomic64CASNvptx, hquiet, hne, hswaps] at hstep
    subst hstep
    refine h.pushDone hholds ?_ ?_ (List.forall_mem_cons.mpr ⟨rfl, h.returned⟩)
    · simp
    · simp

/-- A quiet step keeps the invariant. -/
theorem StackInv.step (h : StackInv s xs) (hwrap : s.NoTagWrap) {a : StackAction cfg}
    (hquiet : s.Quiet a) (hstep : stackStep s a = some s') :
    ∃ xs', Moves s a xs xs' ∧ StackInv s' xs' := by
  cases a with
  | pop w =>
    simp only [stackStep] at hstep
    split_ifs at hstep with hidle
    obtain rfl := Option.some.inj hstep
    refine ⟨xs, rfl, h.setCaller ⟨(h.caller w).held, fun _ _ => ⟨hidle.2, rfl⟩, ?_, ?_, ?_, ?_, ?_⟩
      rfl rfl⟩
    all_goals simp
  | push w =>
    simp only [stackStep] at hstep
    split_ifs at hstep with hidle
    obtain rfl := Option.some.inj hstep
    refine ⟨xs, rfl, h.setCaller ⟨(h.caller w).held, ?_, ?_, ?_, fun _ => ⟨hidle.2, rfl⟩, ?_, ?_⟩
      rfl rfl⟩
    all_goals simp
  | next w =>
    replace hstep : callerStep s w = some s' := hstep
    unfold Moves
    dsimp only
    cases hpc : (s.callers w).pc with
    | idle => simp [callerStep, hpc] at hstep
    | pop p =>
      cases p with
      | load =>
        simp only [callerStep, hpc] at hstep
        exact ⟨xs, rfl, Option.some.inj hstep ▸ h.popLoad hpc⟩
      | next =>
        simp only [callerStep, hpc] at hstep
        exact ⟨xs, rfl, Option.some.inj hstep ▸ h.popNext hpc⟩
      | cas =>
        simp only [StackState.Quiet, hpc] at hquiet
        exact h.popCas hwrap hpc hquiet hstep
    | push p =>
      cases p with
      | load =>
        simp only [callerStep, hpc] at hstep
        exact ⟨xs, rfl, Option.some.inj hstep ▸ h.pushLoad hpc⟩
      | link =>
        simp only [callerStep, hpc] at hstep
        simp only [StackState.Quiet, hpc] at hquiet
        refine ⟨xs, rfl, Option.some.inj hstep ▸ ?_⟩
        rcases (h.caller w).pushing (.inl hpc) with ⟨hholds, hswaps⟩ | ⟨hholds, hswaps, hF⟩
        · exact h.pushLink hpc hholds hswaps
        · exact h.pushRelink hholds hswaps hF (hquiet hswaps)
      | cas => exact ⟨_, rfl, h.pushCas hpc hquiet hstep⟩

/-- The states of the runs from `s₀` in which every step is quiet. -/
def QuietRun (s₀ s : StackState cfg) : Prop :=
  Reachable stackStep (fun s a => s.NoTagWrap ∧ s.Quiet a) s₀ s

theorem QuietRun.inv {s₀ : StackState cfg} (h : QuietRun s₀ s) (hstart : s₀.Start) :
    ∃ xs, StackInv s xs := by
  apply Reachable.invariant (P := fun s => ∃ xs, StackInv s xs) h (StackInv.of_start hstart)
  rintro s a s' ⟨xs, hxs⟩ hok hstep
  obtain ⟨xs', -, hxs'⟩ := hxs.step hok.1 hok.2 hstep
  exact ⟨xs', hxs'⟩

/-- In quiet runs every call that returned has swapped once and every packet is on the stack or
held by one wave; the swap of a `pop` takes its packet off the top, and that of a `push` puts
its packet there. -/
theorem nvptx_stack {s₀ : StackState cfg} (hstart : s₀.Start) (h : QuietRun s₀ s) :
    s.Contract ∧ ∀ w s', s.NoTagWrap → s.Quiet (.next w) → callerStep s w = some s' →
      s.top = (s.callers w).F →
      ((s.callers w).pc = .pop .cas →
        ∃ xs, s.Walk (cfg.index (s.callers w).F :: xs) ∧ s'.Walk xs) ∧
      ((s.callers w).pc = .push .cas →
        ∃ xs, s.Walk xs ∧ s'.Walk (cfg.index (s.callers w).packet_ptr :: xs)) := by
  obtain ⟨xs, hinv⟩ := h.inv hstart
  refine ⟨hinv.contract, fun w s' hwrap hquiet hstep htop => ⟨fun hpc => ?_, fun hpc => ?_⟩⟩
  · obtain ⟨rest, rfl, hrest⟩ := hinv.popCas hwrap hpc htop hstep
    exact ⟨rest, hinv.walk, hrest.walk⟩
  · have hnext := hinv.pushCas hpc hquiet hstep
    have hswaps : (s.callers w).swaps = 0 := by
      rcases (hinv.caller w).pushing (.inr hpc) with ⟨-, hswaps⟩ | ⟨-, hswaps, hF⟩
      · exact hswaps
      · simp only [StackState.Quiet, hpc, hswaps] at hquiet
        exact absurd (htop.trans hF) (hquiet : s.top ≠ 0#64)
    rw [if_pos hswaps] at hnext
    exact ⟨xs, hinv.walk, hnext.walk⟩

instance (s : StackState cfg) : Decidable s.NoTagWrap := by
  unfold StackState.NoTagWrap
  infer_instance

instance (s : StackState cfg) (a : StackAction cfg) : Decidable (s.Quiet a) := by
  cases a with
  | next w =>
    unfold StackState.Quiet
    dsimp only
    split <;> infer_instance
  | pop w => exact isTrue trivial
  | push w => exact isTrue trivial

/-- Packet 1 on top of packet 0, and both waves idle. -/
def twoPackets : StackState twoWaves where
  top := 1
  next := fun i => if i = 1 then 2 else 0
  callers := fun _ => ⟨.idle, 0, 0, 0, false, 0, 0⟩
  recycled := fun _ => 0
  returned := []

theorem twoPackets_start : twoPackets.Start := by
  have hnot : ∀ w i, ¬ twoPackets.Holds w i := by
    rintro w i ⟨hholds, -⟩
    cases hholds
  refine ⟨fun _ => rfl, rfl, ⟨[1, 0], ?_, by decide, ?_, ?_⟩, ?_,
    fun w w' i hw => absurd hw (hnot w i)⟩
  · exact ⟨by decide, by decide, rfl⟩
  · intro i hi
    exact ⟨(show ∀ i ∈ [1, 0], i < 2 by decide) i hi, fun w => hnot w i⟩
  · intro i hi hmem
    have hall : ∀ i < 2, i ∈ [1, 0] := by decide
    exact absurd (hall i hi) hmem
  · intro w hholds
    cases hholds

def quietRun : List (StackAction twoWaves) :=
  [.pop 0, .next 0, .next 0, .next 0, .push 0, .next 0, .next 0, .next 0, .pop 1, .next 1, .next 1,
    .next 1, .pop 0, .next 0, .next 0, .next 0, .push 1, .next 1, .next 1, .next 1, .next 1, .next 1]

theorem nvptx_stack_quietRun :
    ∃ s, QuietRun twoPackets s ∧ s.returned = [1, 1, 1, 1, 1] ∧ s.Contract := by
  have hrun : (runChecked stackStep (fun s a => decide (s.NoTagWrap ∧ s.Quiet a)) twoPackets
      quietRun).map StackState.returned = some [1, 1, 1, 1, 1] := by
    decide +kernel
  obtain ⟨s, hs, hreturned⟩ := Option.map_eq_some_iff.mp hrun
  have hquiet : QuietRun twoPackets s :=
    Reachable.of_runChecked (fun _ _ => of_decide_eq_true) quietRun _ hs
  exact ⟨s, hquiet, hreturned, (nvptx_stack twoPackets_start hquiet).1⟩

def lostRace : List (StackAction twoWaves) :=
  [.pop 0, .pop 1, .next 0, .next 1, .next 0, .next 1, .next 1, .next 0]

theorem not_contract_lostRace : twoPackets.Start ∧
    ¬ ∀ s, Reachable stackStep (fun s _ => s.NoTagWrap) twoPackets s → s.Contract := by
  refine ⟨twoPackets_start, fun hall => ?_⟩
  have hrun : (runChecked stackStep (fun s _ => decide s.NoTagWrap) twoPackets lostRace).map
      StackState.returned = some [0, 1] := by
    decide +kernel
  obtain ⟨s, hs, hreturned⟩ := Option.map_eq_some_iff.mp hrun
  have hcontract := hall s (Reachable.of_runChecked (fun _ _ => of_decide_eq_true) lostRace _ hs)
  have hzero := hcontract.returned 0 (by rw [hreturned]; simp)
  cases hzero

end Aomp.Hostexec

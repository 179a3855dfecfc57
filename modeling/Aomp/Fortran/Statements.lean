import Aomp.Fortran.Cookies

/-!
# Lanes that issue statements

Each lane issues statements `Begin`, `Output`s, `End` one request after the other. The
requests of all lanes reach the service thread in any order. The number of the lane's
statement travels with a request as history.
-/
namespace Aomp.Fortran

open Foundations Hostexec

variable {Lane ρ : Type} [DecidableEq Lane] {results : ℕ → Word}

/-- The service with what the lanes have issued. A statement reports one team and thread
from its `Begin` to its `End`. -/
structure Lanes (Lane ρ : Type) where
  service : State (Lane × ℕ) ρ
  /-- How many statements each lane has begun. -/
  statement : Lane → ℕ
  /-- The team and thread of the statement each lane has open. -/
  openKey : Lane → Option (ℕ × ℕ)

def Lanes.init : Lanes Lane ρ := ⟨State.init, fun _ => 0, fun _ => none⟩

/-- A request as a lane issues it. -/
structure Issue (Lane ρ : Type) where
  lane : Lane
  req : StubRequest
  return_value : ρ

namespace Lanes

variable (s : Lanes Lane ρ) (a : Issue Lane ρ)

def allowed : Bool :=
  if a.req.fn = .beginExternalListOutput then s.openKey a.lane = none
  else s.openKey a.lane = some a.req.key

def number : ℕ :=
  if a.req.fn = .beginExternalListOutput then s.statement a.lane + 1 else s.statement a.lane

def arrival : Arrival (Lane × ℕ) ρ := ⟨a.req, a.return_value, (a.lane, s.number a)⟩

def issued (service : State (Lane × ℕ) ρ) : Lanes Lane ρ where
  service := service
  statement := Function.update s.statement a.lane (s.number a)
  openKey := Function.update s.openKey a.lane
    (if a.req.fn = .endIoStatement then none else some a.req.key)

end Lanes

/-- The service thread handles the next request of a lane. -/
def issueStep (results : ℕ → Word) (s : Lanes Lane ρ) (a : Issue Lane ρ) :
    Option (Lanes Lane ρ) :=
  if s.allowed a then (serve results s.service (s.arrival a)).map fun (service, _) =>
    s.issued a service
  else none

/-- The list was not freed by an earlier flush, and a `Begin` does not arrive while another
lane has a statement open that reports the same team and thread. -/
def Separate (s : Lanes Lane ρ) (a : Issue Lane ρ) : Prop :=
  s.service.deferred_fns ≠ .freed ∧ (a.req.fn = .beginExternalListOutput →
    ∀ l, l ≠ a.lane → s.openKey l ≠ some a.req.key)

/-- Each item and each `End` got the cookie that the one `Begin` of its own statement
returned. -/
def CookiesMatch (called : List (Called (Lane × ℕ) ρ)) : Prop :=
  ∀ c ∈ called, c.fnptr ≠ .beginExternalListOutput →
    (∃ b ∈ called, b.fnptr = .beginExternalListOutput ∧ b.origin = c.origin) ∧
    ∀ b ∈ called, b.fnptr = .beginExternalListOutput → b.origin = c.origin →
      c.host.cookie = some b.result

def ofKey (k : ℕ × ℕ) (fns : List (Entry (Lane × ℕ) ρ)) : List (Entry (Lane × ℕ) ρ) :=
  fns.filter fun q => q.key = k

def begun (fns : List (Entry (Lane × ℕ) ρ)) : List (Lane × ℕ) :=
  (fns.filter fun q => q.fnptr = .beginExternalListOutput).map (·.origin)

/-- Nothing was called, and the statements of each team and thread do not overlap. -/
structure Waiting (s : Lanes Lane ρ) : Prop where
  called : s.service.called = []
  runs : ∀ q ∈ s.service.deferred_fns.entries, q.Runs ∧ q.fnptr.deferForReorder
  order : ∀ k, InOrder none (ofKey k s.service.deferred_fns.entries)
  last : ∀ l k, s.openKey l = some k →
    lastBegin none (ofKey k s.service.deferred_fns.entries) = some (l, s.statement l)
  begun_le : ∀ o ∈ begun s.service.deferred_fns.entries, o.2 ≤ s.statement o.1
  begun_nodup : (begun s.service.deferred_fns.entries).Nodup

omit [DecidableEq Lane] in
theorem Waiting.init : Waiting (Lanes.init : Lanes Lane ρ) := by
  constructor <;> simp [Lanes.init, State.init, DeferredFns.entries, ofKey, begun, InOrder]

section

variable (s : Lanes Lane ρ) (a : Issue Lane ρ)

def Lanes.entry : Entry (Lane × ℕ) ρ :=
  a.req.entry s.service.deferred_fn_count a.return_value (a.lane, s.number a)

omit [DecidableEq Lane] in
theorem entries_record :
    (s.service.record a.req a.return_value (a.lane, s.number a)).deferred_fns.entries =
    s.service.deferred_fns.entries ++ [s.entry a] :=
  State.record_entries ..

omit [DecidableEq Lane] in
theorem ofKey_record (fns : List (Entry (Lane × ℕ) ρ)) (k : ℕ × ℕ) :
    ofKey k (fns ++ [s.entry a]) = ofKey k fns ++ if a.req.key = k then [s.entry a] else [] := by
  rw [ofKey, List.filter_append, List.filter_singleton, show (s.entry a).key = a.req.key from
    a.req.entry_key _ _ _]
  simp [ofKey]

omit [DecidableEq Lane] in
theorem begun_record (fns : List (Entry (Lane × ℕ) ρ)) :
    begun (fns ++ [s.entry a]) = begun fns ++
      if a.req.fn = .beginExternalListOutput then [(a.lane, s.number a)] else [] := by
  rw [begun, List.filter_append, List.filter_singleton, List.map_append]
  by_cases hfn : a.req.fn = .beginExternalListOutput <;>
    simp [begun, Lanes.entry, StubRequest.entry, hfn]

theorem statement_le_issued (service : State (Lane × ℕ) ρ) (l : Lane) :
    s.statement l ≤ (s.issued a service).statement l := by
  by_cases hl : l = a.lane
  · subst hl
    simp only [Lanes.issued, Function.update_self, Lanes.number]
    split_ifs <;> omega
  · simp [Lanes.issued, Function.update_of_ne hl]

end

section

variable {s : Lanes Lane ρ} {a : Issue Lane ρ} (h : Waiting s)

include h

omit [DecidableEq Lane] in
theorem Waiting.runs_record : ∀ q ∈ s.service.deferred_fns.entries ++ [s.entry a],
    q.Runs ∧ q.fnptr.deferForReorder := by
  intro q hq
  rcases List.mem_append.mp hq with hq | hq
  · exact h.runs q hq
  · rw [List.mem_singleton.mp hq]
    exact ⟨a.req.entry_runs _ _ _, a.req.deferForReorder⟩

omit [DecidableEq Lane] in
theorem Waiting.last_record (hsep : Separate s a) {l : Lane} (hl : l ≠ a.lane) {k : ℕ × ℕ}
    (hk : s.openKey l = some k) :
    lastBegin none (ofKey k (s.service.deferred_fns.entries ++ [s.entry a])) = some (l, s.statement l) := by
  rw [ofKey_record]
  by_cases hak : a.req.key = k
  · have hfn : (s.entry a).fnptr ≠ .beginExternalListOutput := fun hfn => hsep.2 hfn l hl (hak ▸ hk)
    rw [if_pos hak, lastBegin_append, h.last l k hk]
    simp [lastBegin, hfn]
  · rw [if_neg hak, List.append_nil]
    exact h.last l k hk

omit [DecidableEq Lane] in
theorem Waiting.not_begun (hfn : a.req.fn = .beginExternalListOutput) :
    (a.lane, s.number a) ∉ begun s.service.deferred_fns.entries := by
  have hnumber : s.number a = s.statement a.lane + 1 := if_pos hfn
  intro hmem
  have hle := h.begun_le _ hmem
  simp only [hnumber] at hle
  omega

/-- Recording the `Begin` of a lane. -/
theorem Waiting.recordBegin (hsep : Separate s a) (hfn : a.req.fn = .beginExternalListOutput) :
    Waiting (s.issued a (s.service.record a.req a.return_value (a.lane, s.number a))) where
  called := by simp [Lanes.issued, h.called]
  runs := h.runs_record
  order := by
    intro k
    simp only [Lanes.issued, entries_record, ofKey_record]
    rw [inOrder_append]
    refine ⟨h.order k, ?_⟩
    split_ifs
    · simp [InOrder, Lanes.entry, StubRequest.entry, hfn]
    · trivial
  last := by
    intro l k hk
    simp only [Lanes.issued, entries_record] at hk ⊢
    by_cases hl : l = a.lane
    · subst hl
      simp only [Function.update_self, hfn] at hk ⊢
      obtain rfl : a.req.key = k := by simpa using hk
      rw [ofKey_record, if_pos rfl, lastBegin_append]
      simp [lastBegin, Lanes.entry, StubRequest.entry, hfn]
    · rw [Function.update_of_ne hl] at hk ⊢
      exact h.last_record hsep hl hk
  begun_le := by
    intro o ho
    simp only [Lanes.issued, entries_record, begun_record, if_pos hfn, List.mem_append,
      List.mem_singleton] at ho
    rcases ho with ho | rfl
    · exact (h.begun_le o ho).trans (statement_le_issued _ _ _ _)
    · simp [Lanes.issued]
  begun_nodup := by
    simp only [Lanes.issued, entries_record, begun_record, if_pos hfn]
    rw [List.nodup_append]
    refine ⟨h.begun_nodup, List.nodup_singleton _, fun o ho o' ho' he => h.not_begun hfn ?_⟩
    rw [← List.mem_singleton.mp ho', ← he]
    exact ho

/-- Recording an item or the `End` of a lane. -/
theorem Waiting.recordItem (hallowed : s.allowed a) (hsep : Separate s a)
    (hfn : a.req.fn ≠ .beginExternalListOutput) :
    Waiting (s.issued a (s.service.record a.req a.return_value (a.lane, s.number a))) := by
  have hnumber : s.number a = s.statement a.lane := if_neg hfn
  have hopen : s.openKey a.lane = some a.req.key := by
    simpa [Lanes.allowed, hfn] using hallowed
  have hlast := h.last _ _ hopen
  constructor
  · simp [Lanes.issued, h.called]
  · exact h.runs_record
  · intro k
    simp only [Lanes.issued, entries_record, ofKey_record]
    rw [inOrder_append]
    refine ⟨h.order k, ?_⟩
    by_cases hak : a.req.key = k
    · subst hak
      simp [InOrder, Lanes.entry, StubRequest.entry, hfn, hlast, hnumber]
    · rw [if_neg hak]
      trivial
  · intro l k hk
    simp only [Lanes.issued, entries_record] at hk ⊢
    by_cases hl : l = a.lane
    · subst hl
      simp only [Function.update_self] at hk ⊢
      split_ifs at hk
      obtain rfl : a.req.key = k := Option.some.inj hk
      rw [ofKey_record, if_pos rfl, lastBegin_append, hlast, hnumber]
      simp [lastBegin, Lanes.entry, StubRequest.entry, hfn]
    · rw [Function.update_of_ne hl] at hk ⊢
      exact h.last_record hsep hl hk
  · intro o ho
    simp only [Lanes.issued, entries_record, begun_record, if_neg hfn,
      List.append_nil] at ho
    exact (h.begun_le o ho).trans (statement_le_issued _ _ _ _)
  · simp only [Lanes.issued, entries_record, begun_record, if_neg hfn, List.append_nil]
    exact h.begun_nodup

theorem Waiting.record (hallowed : s.allowed a) (hsep : Separate s a) :
    Waiting (s.issued a (s.service.record a.req a.return_value (a.lane, s.number a))) := by
  by_cases hfn : a.req.fn = .beginExternalListOutput
  · exact h.recordBegin hsep hfn
  · exact h.recordItem hallowed hsep hfn

end

omit [DecidableEq Lane] in
/-- When the statements of each team and thread do not overlap, the flush gives every call
the cookie of its own statement. -/
theorem Waiting.flush {s : Lanes Lane ρ} (h : Waiting s)
    (hlive : s.service.deferred_fns = .live s.service.deferred_fns.entries)
    {st : State (Lane × ℕ) ρ} {rc : ServiceRc} (hs : flush results s.service = some (st, rc)) :
    st.deferred_fns = .freed ∧ CookiesMatch st.called := by
  set fns := s.service.deferred_fns.entries with hfns
  set keys := List.range s.service.max_num_teams.toNat ×ˢ
    List.range s.service.max_num_threads.toNat with hkeys
  have hscan : scan s.service.max_num_teams.toNat s.service.max_num_threads.toNat fns =
      bucketScan keys Entry.key fns := scan_eq _ _ _
  have horder : InOrder none (bucketScan keys Entry.key fns) :=
    inOrder_flatMap fun k _ => h.order k
  have hruns : ∀ q ∈ bucketScan keys Entry.key fns, q.Runs ∧ q.fnptr.deferForReorder :=
    fun q hq => h.runs q (mem_bucketScan.mp hq).1
  have hnodup : (begun (bucketScan keys Entry.key fns)).Nodup := by
    have hperm := bucketScan_perm_filter Entry.key fns
      (List.nodup_range.product List.nodup_range : keys.Nodup)
    apply (((hperm.filter _).map _).nodup_iff).mpr
    exact h.begun_nodup.sublist (((List.filter_sublist (l := fns)).filter _).map _)
  rw [Fortran.flush, hlive] at hs
  split_ifs at hs
  obtain ⟨⟨t, rc'⟩, ht, he⟩ := Option.map_eq_some_iff.mp hs
  obtain ⟨t', -, ht', -, -⟩ := runDeferred_of_runs results s.service (fun q hq => (hruns q hq).1)
  rw [hscan] at ht
  obtain ⟨rfl, rfl⟩ := Prod.mk.inj (Option.some.inj (ht'.symm.trans ht))
  obtain ⟨calls, hcalled, hsig, hown⟩ := runDeferred_cookies hruns horder (by simp) ht
  simp only [if_true] at he
  obtain ⟨rfl, -⟩ := Prod.mk.inj he
  refine ⟨rfl, ?_⟩
  rw [h.called, List.nil_append] at hcalled
  have hbegun : (calls.filter fun c => c.fnptr = .beginExternalListOutput).map (·.origin) =
      begun (bucketScan keys Entry.key fns) := by
    have hcalls : (calls.filter fun c => c.fnptr = .beginExternalListOutput).map (·.origin) =
        ((calls.map Called.signature).filter fun x => x.1 = .beginExternalListOutput).map
          (·.2.2.2) := by
      rw [List.filter_map, List.map_map]
      rfl
    rw [hcalls, hsig, List.filter_map, List.map_map]
    rfl
  rw [← hbegun] at hnodup
  intro c hc hfn
  simp only [hcalled] at hc hown ⊢
  obtain ⟨b, hb, hbfn, hbo, hcookie⟩ := hown c hc hfn
  refine ⟨⟨b, hb, hbfn, hbo⟩, fun b' hb' hbfn' hbo' => ?_⟩
  have hmem : ∀ x ∈ calls, x.fnptr = .beginExternalListOutput →
      x ∈ calls.filter fun c => c.fnptr = .beginExternalListOutput :=
    fun x hx hxfn => List.mem_filter.mpr ⟨hx, by simp [hxfn]⟩
  rw [List.inj_on_of_nodup_map hnodup (hmem b' hb' hbfn') (hmem b hb hbfn) (hbo'.trans hbo.symm)]
  exact hcookie

/-- Before the flush the statements are separate, after it every cookie matches. -/
def Served (s : Lanes Lane ρ) : Prop :=
  (s.service.deferred_fns = .freed → CookiesMatch s.service.called) ∧
    (s.service.deferred_fns ≠ .freed → Waiting s)

theorem Served.step {s s' : Lanes Lane ρ} {a : Issue Lane ρ} (h : Served s) (hsep : Separate s a)
    (hs : issueStep results s a = some s') : Served s' := by
  have hwaiting := h.2 hsep.1
  unfold issueStep at hs
  split_ifs at hs with hallowed
  obtain ⟨⟨st, rc⟩, hst, rfl⟩ := Option.map_eq_some_iff.mp hs
  have hrecord := hwaiting.record hallowed hsep
  simp only [serve, Lanes.arrival, fortranRtService_stub _ _ _ _ _ hsep.1] at hst
  split_ifs at hst with htrigger
  · obtain ⟨hfreed, hmatch⟩ := hrecord.flush rfl hst
    exact ⟨fun _ => hmatch, fun hne => absurd hfreed hne⟩
  · obtain ⟨rfl, -⟩ := Prod.mk.inj (Option.some.inj hst)
    exact ⟨fun hfreed => by simp [Lanes.issued, State.record] at hfreed, fun _ => hrecord⟩

/-- In every run whose requests are all separate, every output item and every `End` called
by the host uses the cookie that the `Begin` of the same lane's same statement returned. -/
theorem cookies_match (results : ℕ → Word) (s : Lanes Lane ρ)
    (h : Reachable (issueStep results) Separate Lanes.init s) : CookiesMatch s.service.called := by
  have hserved : Served s := h.invariant
    ⟨fun hfreed => by simp [Lanes.init, State.init] at hfreed, fun _ => .init⟩
    fun _ _ _ hs hsep hstep => hs.step hsep hstep
  by_cases hfreed : s.service.deferred_fns = .freed
  · exact hserved.1 hfreed
  · intro c hc
    rw [(hserved.2 hfreed).called] at hc
    simp at hc

/-- Lane `l` reports thread `n` of 2 in team 0 of 1. -/
def issueOf (l : Fin 2) (fn : DeviceRt) (n : BitVec 32) (args : List ArgVal)
    (h : fn.accepts args) : Issue (Fin 2) ℕ :=
  ⟨l, ⟨fn, n, 2, 0, 1, args, h⟩, l⟩

/-- Lanes 0 and 1, of threads `m` and `n`, write one integer each. -/
def overlapping (m n : BitVec 32) : List (Issue (Fin 2) ℕ) :=
  [issueOf 0 .beginExternalListOutput m [.word 6, .str [97], .word 3] accepts_begin,
    issueOf 1 .beginExternalListOutput n [.word 6, .str [97], .word 3] accepts_begin,
    issueOf 0 .outputInteger32 m [.word 0, .word 41] accepts_integer,
    issueOf 1 .outputInteger32 n [.word 0, .word 42] rfl,
    issueOf 0 .endIoStatement m [.word 0] accepts_end,
    issueOf 1 .endIoStatement n [.word 0] accepts_end]

/-- `Separate`, decided for two lanes. -/
def checkSeparate (s : Lanes (Fin 2) ℕ) (a : Issue (Fin 2) ℕ) : Bool :=
  (match s.service.deferred_fns with
    | .freed => false
    | _ => true) &&
    decide (a.req.fn = .beginExternalListOutput →
      ∀ l, l ≠ a.lane → s.openKey l ≠ some a.req.key)

theorem of_checkSeparate (s : Lanes (Fin 2) ℕ) (a : Issue (Fin 2) ℕ)
    (h : checkSeparate s a = true) : Separate s a := by
  obtain ⟨hfreed, hsep⟩ := Bool.and_eq_true_iff.mp h
  refine ⟨fun he => ?_, of_decide_eq_true hsep⟩
  simp [he] at hfreed

theorem overlapping_separate : ((runChecked (issueStep fun n => BitVec.ofNat 64 (n + 1))
    checkSeparate Lanes.init (overlapping 0 1)).map fun s => s.service.called.length) = some 6 := by
  decide +kernel

theorem cookies_match_twoThreads : ∃ s : Lanes (Fin 2) ℕ,
    Reachable (issueStep fun n => BitVec.ofNat 64 (n + 1)) Separate Lanes.init s ∧
      s.service.called.length = 6 ∧ CookiesMatch s.service.called := by
  obtain ⟨s, hs, hlength⟩ := Option.map_eq_some_iff.mp overlapping_separate
  have hreach := Reachable.of_runChecked of_checkSeparate _ _ hs
  exact ⟨s, hreach, hlength, cookies_match _ s hreach⟩

/-- The cookie that each item of lane 0 gets and the one its `Begin` returned. -/
def laneCookies (called : List (Called (Fin 2 × ℕ) ℕ)) : List (Option Word × Option Word) :=
  (called.filter fun c => c.fnptr = .outputInteger32 ∧ c.origin.1 = 0).map fun c =>
    (c.host.cookie, (called.find? fun b =>
      b.fnptr = .beginExternalListOutput ∧ b.origin = c.origin).map (·.result))

theorem overlapping_cookies : ((runChecked (issueStep fun n => BitVec.ofNat 64 (n + 1))
    (fun _ _ => true) Lanes.init (overlapping 0 0)).map fun s => laneCookies s.service.called) =
      some [(some 2, some 1)] := by
  decide +kernel

theorem cookies_not_match : ¬ ∀ (results : ℕ → Word) (s : Lanes (Fin 2) ℕ),
    Reachable (issueStep results) (fun _ _ => True) Lanes.init s → CookiesMatch s.service.called := by
  intro hall
  obtain ⟨s, hs, hcookies⟩ := Option.map_eq_some_iff.mp overlapping_cookies
  have hmatch := hall _ s (Reachable.of_runChecked (fun _ _ _ => trivial) _ _ hs)
  obtain ⟨c, hc, hpair⟩ : ∃ c ∈ s.service.called.filter (fun c =>
      c.fnptr = .outputInteger32 ∧ c.origin.1 = 0), (c.host.cookie, (s.service.called.find? fun b =>
        b.fnptr = .beginExternalListOutput ∧ b.origin = c.origin).map (·.result)) =
          (some 2, some 1) :=
    List.mem_map.mp (show _ ∈ laneCookies s.service.called from
      hcookies ▸ List.mem_singleton_self _)
  obtain ⟨hmem, hfn⟩ := List.mem_filter.mp hc
  obtain ⟨hcookie, hfind⟩ := Prod.mk.inj hpair
  obtain ⟨b, hb, hresult⟩ := Option.map_eq_some_iff.mp hfind
  obtain ⟨hbfn, hbo⟩ : b.fnptr = .beginExternalListOutput ∧ b.origin = c.origin := by
    simpa using List.find?_some hb
  have hfn : c.fnptr = .outputInteger32 := (of_decide_eq_true hfn).1
  have hown := (hmatch c hmem (by simp [hfn])).2 b (List.mem_of_find?_eq_some hb) hbfn hbo
  rw [hcookie, hresult] at hown
  simp at hown

end Aomp.Fortran

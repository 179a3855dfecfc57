import Aomp.Foundations.TransitionSystem
import Aomp.Fortran.Flush

/-!
# Which cookie an output item gets

All wrappers read the one cookie that the last `Begin` stored. The flush reorders calls by
team and thread only, so an item keeps its own statement's cookie when the statements of
equal team and thread numbers do not overlap. Lanes are arbitrary: they may belong to
different kernels and devices and report equal numbers.
-/
namespace Aomp.Fortran

open Foundations Hostexec

variable {ι ρ : Type}

/-- Each call that is not a `Begin` belongs to the statement of the last `Begin`, where
`cur` is the statement open at the start. -/
def InOrder : Option ι → List (Entry ι ρ) → Prop
  | _, [] => True
  | cur, q :: qs =>
    if q.fnptr = .beginExternalListOutput then InOrder (some q.origin) qs
    else cur = some q.origin ∧ InOrder cur qs

def lastBegin : Option ι → List (Entry ι ρ) → Option ι
  | cur, [] => cur
  | cur, q :: qs =>
    if q.fnptr = .beginExternalListOutput then lastBegin (some q.origin) qs else lastBegin cur qs

theorem inOrder_append {cur : Option ι} {xs ys : List (Entry ι ρ)} :
    InOrder cur (xs ++ ys) ↔ InOrder cur xs ∧ InOrder (lastBegin cur xs) ys := by
  induction xs generalizing cur with
  | nil => simp [InOrder, lastBegin]
  | cons q xs ih =>
    by_cases hq : q.fnptr = .beginExternalListOutput
    · simp [InOrder, lastBegin, hq, ih]
    · simp [InOrder, lastBegin, hq, ih, and_assoc]

theorem lastBegin_append {cur : Option ι} {xs ys : List (Entry ι ρ)} :
    lastBegin cur (xs ++ ys) = lastBegin (lastBegin cur xs) ys := by
  induction xs generalizing cur with
  | nil => rfl
  | cons q xs ih => by_cases hq : q.fnptr = .beginExternalListOutput <;> simp [lastBegin, hq, ih]

theorem InOrder.after {xs : List (Entry ι ρ)} (h : InOrder none xs) (cur : Option ι) :
    InOrder cur xs := by
  cases xs with
  | nil => trivial
  | cons q xs =>
    by_cases hq : q.fnptr = .beginExternalListOutput
    · simpa [InOrder, hq] using h
    · simp [InOrder, hq] at h

theorem inOrder_flatMap {κ : Type} {keys : List κ} {f : κ → List (Entry ι ρ)}
    (h : ∀ k ∈ keys, InOrder none (f k)) : InOrder none (keys.flatMap f) := by
  induction keys with
  | nil => trivial
  | cons k keys ih =>
    rw [List.flatMap_cons, inOrder_append]
    exact ⟨h k List.mem_cons_self, (ih fun k' hk' => h k' (List.mem_cons_of_mem _ hk')).after _⟩

/-- A deferred wrapper other than `Begin` passes on the stored cookie. -/
theorem vWrapper_cookie {cookie : Word} {fn : DeviceRt} {args : List ArgVal} {host : HostCall}
    (h : vWrapper cookie fn args = some host) (hdefer : fn.deferForReorder)
    (hfn : fn ≠ .beginExternalListOutput) : host.cookie = some cookie := by
  have hwith : ∀ types, V_withCookie fn types cookie args = some host → host.cookie = some cookie := by
    intro types hv
    cases args with
    | nil => simp [V_withCookie] at hv
    | cons a args =>
      simp only [V_withCookie] at hv
      split_ifs at hv
      obtain rfl := Option.some.inj hv
      rfl
  cases fn with
  | beginExternalListOutput => exact absurd rfl hfn
  | abort | stopStatementText => simp [DeviceRt.deferForReorder] at hdefer
  | _ => exact hwith _ h

/-- The call got the cookie that the `Begin` of its statement returned. -/
def Called.OwnCookie (calls : List (Called ι ρ)) (c : Called ι ρ) : Prop :=
  ∃ b ∈ calls, b.fnptr = .beginExternalListOutput ∧ b.origin = c.origin ∧
    c.host.cookie = some b.result

/-- Running whole statements one after the other gives every call its own cookie. -/
theorem runDeferred_cookies {results : ℕ → Word} {s s' : State ι ρ} {qs : List (Entry ι ρ)}
    {cur : Option ι} {rc : ServiceRc} (hruns : ∀ q ∈ qs, q.Runs ∧ q.fnptr.deferForReorder)
    (horder : InOrder cur qs)
    (hcur : ∀ o, cur = some o → ∃ b ∈ s.called, b.fnptr = .beginExternalListOutput ∧
      b.origin = o ∧ s.list_started_cookie = b.result)
    (h : runDeferred results s qs = some (s', rc)) :
    ∃ calls, s'.called = s.called ++ calls ∧
      calls.map Called.signature = qs.map Entry.signature ∧
      ∀ c ∈ calls, c.fnptr ≠ .beginExternalListOutput → c.OwnCookie s'.called := by
  induction qs generalizing s cur with
  | nil =>
    obtain ⟨rfl, -⟩ := Prod.mk.inj (Option.some.inj h)
    exact ⟨[], by simp, rfl, by simp⟩
  | cons q qs ih =>
    obtain ⟨hq, hdefer⟩ := hruns q List.mem_cons_self
    have hargs : q.arg_array.take q.NumArgs = q.arg_array := by rw [← hq.length, List.take_length]
    rw [runDeferred, if_pos hq.callable, hargs] at h
    obtain ⟨t, ht, hrest⟩ := Option.bind_eq_some_iff.mp h
    obtain ⟨host, hhost, rfl⟩ := Option.map_eq_some_iff.mp ht
    set call : Called ι ρ := ⟨q.fnptr, q.arg_array, host, q.return_value, results s.called.length,
      q.origin⟩ with hcall
    have hqs := fun q' hq' => hruns q' (List.mem_cons_of_mem _ hq')
    by_cases hfn : q.fnptr = .beginExternalListOutput
    · simp only [InOrder, hfn, if_true] at horder
      obtain ⟨calls, hcalled, hsig, hown⟩ := ih hqs horder (fun o ho => by
        obtain rfl := Option.some.inj ho
        exact ⟨call, List.mem_append_right _ (List.mem_singleton_self _), hfn, rfl, if_pos hfn⟩) hrest
      refine ⟨call :: calls, by rw [hcalled, List.append_assoc]; rfl, ?_, fun c hc hne => ?_⟩
      · rw [List.map_cons, List.map_cons, hsig]
        rfl
      · rcases List.mem_cons.mp hc with rfl | hc
        · exact absurd hfn hne
        · exact hown c hc hne
    · simp only [InOrder, hfn, if_false] at horder
      obtain ⟨b, hb, hbfn, hbo, hcookie⟩ := hcur _ horder.1
      obtain ⟨calls, hcalled, hsig, hown⟩ := ih hqs horder.2 (fun o ho => by
        obtain rfl := Option.some.inj (horder.1.symm.trans ho)
        exact ⟨b, List.mem_append_left _ hb, hbfn, hbo, (if_neg hfn).trans hcookie⟩) hrest
      refine ⟨call :: calls, by rw [hcalled, List.append_assoc]; rfl, ?_, fun c hc hne => ?_⟩
      · rw [List.map_cons, List.map_cons, hsig]
        rfl
      · rcases List.mem_cons.mp hc with rfl | hc
        · refine ⟨b, by rw [hcalled]; exact List.mem_append_left _ (List.mem_append_left _ hb), hbfn,
            hbo, ?_⟩
          rw [← hcookie]
          exact vWrapper_cookie hhost hdefer hfn
        · exact hown c hc hne

end Aomp.Fortran

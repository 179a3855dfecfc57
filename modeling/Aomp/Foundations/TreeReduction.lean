import Mathlib

/-!
# Tree reductions over a power of two of slots

`pairTree` is the value that a binary tree reduction leaves in a slot after the round with
a given offset. A loop over halved offsets computes it in two ways: in place, where slot `i`
takes in slot `i + off`, and as a butterfly, where lane `l` takes in lane `l ^^^ off`
through an exchange that may or may not deliver the partner's value.
-/
namespace Aomp.Foundations

variable {T : Type*} {op : T → T → T} {g v : ℕ → T} {off width i m : ℕ}

/-- The values that `for (o = off; o > 0; o >>= 1)` takes. -/
def halvings (off : ℕ) : List ℕ :=
  if off = 0 then [] else (List.range (off.log2 + 1)).map (off >>> ·)

theorem halvings_zero : halvings 0 = [] := rfl

theorem halvings_of_pos (h : 0 < off) : halvings off = off :: halvings (off / 2) := by
  unfold halvings
  rw [if_neg (by omega), List.range_succ_eq_map, List.map_cons, List.map_map]
  congr 1
  by_cases h2 : off / 2 = 0
  · obtain rfl : off = 1 := by omega
    rfl
  · have hlog : off.log2 = (off / 2).log2 + 1 := by
      rw [Nat.log2_def, if_pos (by omega)]
    rw [if_neg h2, hlog]
    apply List.map_congr_left
    intro j _
    simp [Nat.shiftRight_succ_inside]

theorem le_of_mem_halvings {o : ℕ} (h : o ∈ halvings off) : o ≤ off := by
  unfold halvings at h
  split_ifs at h
  · simp at h
  · obtain ⟨j, -, rfl⟩ := List.mem_map.mp h
    rw [Nat.shiftRight_eq_div_pow]
    exact Nat.div_le_self _ _

/-- What slot `i` holds after the rounds with offsets down to `off`: before the first
round it holds `g i`, and a round takes in the slot `off` further on. -/
def pairTree (op : T → T → T) (width : ℕ) (g : ℕ → T) (off i : ℕ) : T :=
  if 0 < off ∧ off < width then
    op (pairTree op width g (2 * off) i) (pairTree op width g (2 * off) (i + off))
  else g i
termination_by width - off

theorem pairTree_of_le (h : width ≤ off) : pairTree op width g off i = g i := by
  unfold pairTree
  exact if_neg (by omega)

theorem pairTree_of_lt (hpos : 0 < off) (h : off < width) :
    pairTree op width g off i =
      op (pairTree op width g (2 * off) i) (pairTree op width g (2 * off) (i + off)) := by
  conv_lhs => unfold pairTree
  exact if_pos ⟨hpos, h⟩

theorem pairTree_congr {g' : ℕ → T} (h : ∀ j < off * 2 ^ m, g j = g' j) (hi : i < off) :
    pairTree op (off * 2 ^ m) g off i = pairTree op (off * 2 ^ m) g' off i := by
  induction m generalizing off i with
  | zero =>
    rw [pow_zero, mul_one] at h ⊢
    rw [pairTree_of_le le_rfl, pairTree_of_le le_rfl]
    exact h i hi
  | succ m ih =>
    have hwidth : off * 2 ^ (m + 1) = 2 * off * 2 ^ m := by ring
    have hlt : off < 2 * off * 2 ^ m := by
      have := Nat.one_le_two_pow (n := m)
      nlinarith
    rw [hwidth] at h ⊢
    rw [pairTree_of_lt (by omega) hlt, pairTree_of_lt (by omega) hlt,
      ih h (by omega), ih h (by omega)]

theorem prod_range_two_mul [CommMonoid T] (f : ℕ → T) (n : ℕ) :
    ∏ j ∈ Finset.range (2 * n), f j =
      (∏ j ∈ Finset.range n, f (2 * j)) * ∏ j ∈ Finset.range n, f (2 * j + 1) := by
  induction n with
  | zero => simp
  | succ n ih =>
    rw [show 2 * (n + 1) = 2 * n + 1 + 1 from by ring, Finset.prod_range_succ,
      Finset.prod_range_succ, ih, Finset.prod_range_succ, Finset.prod_range_succ]
    ac_rfl

/-- For an associative and commutative operation slot `i` holds the product of the slots
that are `i` modulo the offset, each once. -/
theorem pairTree_eq_prod [CommMonoid T] (hi : i < off) :
    pairTree (· * ·) (off * 2 ^ m) g off i = ∏ j ∈ Finset.range (2 ^ m), g (i + off * j) := by
  induction m generalizing off i with
  | zero => simp [pairTree_of_le]
  | succ m ih =>
    have hwidth : off * 2 ^ (m + 1) = 2 * off * 2 ^ m := by ring
    have hlt : off < 2 * off * 2 ^ m := by
      have := Nat.one_le_two_pow (n := m)
      nlinarith
    rw [hwidth, pairTree_of_lt (by omega) hlt, ih (by omega), ih (by omega),
      show 2 ^ (m + 1) = 2 * 2 ^ m from by ring, prod_range_two_mul]
    congr 1
    · apply Finset.prod_congr rfl
      intro j _
      congr 1
      ring
    · apply Finset.prod_congr rfl
      intro j _
      congr 1
      ring

theorem pairTree_one_zero [CommMonoid T] :
    pairTree (· * ·) (2 ^ m) g 1 0 = ∏ j ∈ Finset.range (2 ^ m), g j := by
  have h : pairTree (· * ·) (1 * 2 ^ m) g 1 0 = ∏ j ∈ Finset.range (2 ^ m), g (0 + 1 * j) :=
    pairTree_eq_prod one_pos
  simpa using h

/-- One round in place: the slots below the offset take in the slot `off` further on. -/
def inPlaceRound (op : T → T → T) (off : ℕ) (x : ℕ → T) : ℕ → T :=
  fun i => if i < off then op (x i) (x (i + off)) else x i

def inPlace (op : T → T → T) (off : ℕ) (x : ℕ → T) : ℕ → T :=
  (halvings off).foldl (fun x off => inPlaceRound op off x) x

theorem inPlace_eq_pairTree {x : ℕ → T} (hm : i ≤ m)
    (hx : ∀ j < 2 ^ i, x j = pairTree op (2 ^ m) g (2 ^ i) j) :
    inPlace op (2 ^ i / 2) x 0 = pairTree op (2 ^ m) g 1 0 := by
  induction i generalizing x with
  | zero => exact hx 0 (by simp)
  | succ i ih =>
    have hhalf : 2 ^ (i + 1) / 2 = 2 ^ i := by omega
    have hround : inPlace op (2 ^ i) x = inPlace op (2 ^ i / 2) (inPlaceRound op (2 ^ i) x) := by
      unfold inPlace
      rw [halvings_of_pos (by positivity), List.foldl_cons]
    rw [hhalf, hround]
    apply ih (by omega)
    intro j hj
    have hlt : 2 ^ i < 2 ^ m := Nat.pow_lt_pow_right (by omega) (by omega)
    rw [inPlaceRound, if_pos hj, hx j (by omega), hx (j + 2 ^ i) (by omega),
      pairTree_of_lt (by positivity) hlt, show 2 * 2 ^ i = 2 ^ (i + 1) from by ring]

def butterflyRound (op : T → T → T) (exchange : (ℕ → T) → ℕ → ℕ → T) (off : ℕ) (v : ℕ → T) :
    ℕ → T :=
  fun l => op (v l) (exchange v l off)

def butterfly (op : T → T → T) (exchange : (ℕ → T) → ℕ → ℕ → T) (off : ℕ) (v : ℕ → T) : ℕ → T :=
  (halvings off).foldl (fun v off => butterflyRound op exchange off v) v

/-- In every round every lane below `width` gets exactly what its partner holds. -/
def ExactRounds (op : T → T → T) (exchange : (ℕ → T) → ℕ → ℕ → T) (width : ℕ) :
    List ℕ → (ℕ → T) → Prop
  | [], _ => True
  | off :: rest, v => (∀ l < width, exchange v l off = v (l ^^^ off)) ∧
      ExactRounds op exchange width rest (butterflyRound op exchange off v)

theorem exactRounds_of_forall {exchange : (ℕ → T) → ℕ → ℕ → T} {offsets : List ℕ}
    (h : ∀ o ∈ offsets, ∀ v, ∀ l < width, exchange v l o = v (l ^^^ o)) :
    ∀ v, ExactRounds op exchange width offsets v := by
  induction offsets with
  | nil => exact fun _ => trivial
  | cons o rest ih =>
    intro v
    exact ⟨h o List.mem_cons_self v, ih (fun o' ho' => h o' (List.mem_cons_of_mem _ ho')) _⟩

theorem xor_two_pow_of_lt {r : ℕ} (h : r < 2 ^ i) : r ^^^ 2 ^ i = r + 2 ^ i := by
  have h2 := Nat.two_pow_add_eq_or_of_lt h 1
  rw [mul_one] at h2
  rw [add_comm, h2]
  apply Nat.eq_of_testBit_eq
  intro j
  rw [Nat.testBit_xor, Nat.testBit_or, Nat.testBit_two_pow]
  by_cases hj : i = j
  · subst hj
    simp [Nat.testBit_lt_two_pow h]
  · simp [hj]

/-- The two partners of a round are the two halves of one residue class. -/
theorem mod_of_xor (l i : ℕ) :
    (l % 2 ^ (i + 1) = l % 2 ^ i ∧ (l ^^^ 2 ^ i) % 2 ^ (i + 1) = l % 2 ^ i + 2 ^ i) ∨
      (l % 2 ^ (i + 1) = l % 2 ^ i + 2 ^ i ∧ (l ^^^ 2 ^ i) % 2 ^ (i + 1) = l % 2 ^ i) := by
  have hr : l % 2 ^ i < 2 ^ i := Nat.mod_lt _ (by positivity)
  have hxor : (l ^^^ 2 ^ i) % 2 ^ (i + 1) = l % 2 ^ (i + 1) ^^^ 2 ^ i := by
    rw [Nat.xor_mod_two_pow, Nat.mod_eq_of_lt (a := 2 ^ i) (Nat.pow_lt_pow_right (by omega) (by omega))]
  have hsplit : l % 2 ^ (i + 1) = l % 2 ^ i + 2 ^ i * (l / 2 ^ i % 2) := Nat.mod_pow_succ
  rcases Nat.mod_two_eq_zero_or_one (l / 2 ^ i) with h | h
  · left
    rw [hxor, hsplit, h, mul_zero, add_zero]
    exact ⟨rfl, xor_two_pow_of_lt hr⟩
  · right
    rw [hxor, hsplit, h, mul_one]
    refine ⟨rfl, ?_⟩
    rw [← xor_two_pow_of_lt hr, Nat.xor_assoc, Nat.xor_self, Nat.xor_zero]

section Exchange

variable {exchange : (ℕ → T) → ℕ → ℕ → T}

theorem butterfly_two_pow : butterfly op exchange (2 ^ i) v =
    butterfly op exchange (2 ^ i / 2) (butterflyRound op exchange (2 ^ i) v) := by
  unfold butterfly
  rw [halvings_of_pos (by positivity), List.foldl_cons]

theorem butterflyRound_eq (comm : ∀ a b, op a b = op b a) (him : i < m)
    (hv : ∀ l < 2 ^ m, v l = pairTree op (2 ^ m) g (2 ^ (i + 1)) (l % 2 ^ (i + 1)))
    (hexact : ∀ l < 2 ^ m, exchange v l (2 ^ i) = v (l ^^^ 2 ^ i)) :
    ∀ l < 2 ^ m, butterflyRound op exchange (2 ^ i) v l =
      pairTree op (2 ^ m) g (2 ^ i) (l % 2 ^ i) := by
  intro l hl
  have hlt : 2 ^ i < 2 ^ m := Nat.pow_lt_pow_right (by omega) him
  have hpartner : l ^^^ 2 ^ i < 2 ^ m := Nat.xor_lt_two_pow hl hlt
  rw [butterflyRound, hexact l hl, hv l hl, hv _ hpartner, pairTree_of_lt (by positivity) hlt,
    show 2 * 2 ^ i = 2 ^ (i + 1) from by ring]
  obtain ⟨hself, hother⟩ | ⟨hself, hother⟩ := mod_of_xor l i
  · rw [hself, hother]
  · rw [hself, hother]
    exact comm _ _

theorem butterfly_eq_pairTree (comm : ∀ a b, op a b = op b a) (him : i ≤ m)
    (hv : ∀ l < 2 ^ m, v l = pairTree op (2 ^ m) g (2 ^ i) (l % 2 ^ i))
    (hexact : ExactRounds op exchange (2 ^ m) (halvings (2 ^ i / 2)) v) :
    ∀ l < 2 ^ m, butterfly op exchange (2 ^ i / 2) v l = pairTree op (2 ^ m) g 1 0 := by
  induction i generalizing v with
  | zero =>
    intro l hl
    have h := hv l hl
    simpa [butterfly, halvings_zero, Nat.mod_one] using h
  | succ i ih =>
    rw [show 2 ^ (i + 1) / 2 = 2 ^ i from by omega] at hexact ⊢
    rw [halvings_of_pos (by positivity)] at hexact
    rw [butterfly_two_pow]
    exact ih (by omega) (butterflyRound_eq comm (by omega) hv hexact.1) hexact.2

/-- Where the exchange relays the partner's value, all rounds are exact if and only if the
relay keeps every partial result that the rounds exchange. -/
theorem exactRounds_iff {relay : T → T} (comm : ∀ a b, op a b = op b a) (him : i ≤ m)
    (hrelay : ∀ v, ∀ l < 2 ^ m, ∀ o < 2 ^ m, exchange v l o = relay (v (l ^^^ o)))
    (hv : ∀ l < 2 ^ m, v l = pairTree op (2 ^ m) g (2 ^ i) (l % 2 ^ i)) :
    ExactRounds op exchange (2 ^ m) (halvings (2 ^ i / 2)) v ↔
      ∀ j, 0 < j → j ≤ i → ∀ r < 2 ^ j,
        relay (pairTree op (2 ^ m) g (2 ^ j) r) = pairTree op (2 ^ m) g (2 ^ j) r := by
  induction i generalizing v with
  | zero =>
    constructor
    · intro _ j hj hj0
      omega
    · intro _
      exact trivial
  | succ i ih =>
    have hlt : 2 ^ i < 2 ^ m := Nat.pow_lt_pow_right (by omega) (by omega)
    have hround : (∀ l < 2 ^ m, exchange v l (2 ^ i) = v (l ^^^ 2 ^ i)) ↔
        ∀ r < 2 ^ (i + 1), relay (pairTree op (2 ^ m) g (2 ^ (i + 1)) r) =
          pairTree op (2 ^ m) g (2 ^ (i + 1)) r := by
      constructor
      · intro h r hr
        have hrm : r < 2 ^ m := hr.trans_le (Nat.pow_le_pow_right (by omega) him)
        have hl : r ^^^ 2 ^ i < 2 ^ m := Nat.xor_lt_two_pow hrm hlt
        have := h _ hl
        rwa [hrelay v _ hl _ hlt, Nat.xor_assoc, Nat.xor_self, Nat.xor_zero, hv r hrm,
          Nat.mod_eq_of_lt hr] at this
      · intro h l hl
        rw [hrelay v l hl _ hlt, hv _ (Nat.xor_lt_two_pow hl hlt)]
        exact h _ (Nat.mod_lt _ (by positivity))
    rw [show 2 ^ (i + 1) / 2 = 2 ^ i from by omega, halvings_of_pos (by positivity)]
    constructor
    · rintro ⟨hexact, hrest⟩ j hj hji r hr
      rcases Nat.lt_or_ge i j with hij | hij
      · obtain rfl : j = i + 1 := by omega
        exact hround.mp hexact r hr
      · exact (ih (by omega) (butterflyRound_eq comm (by omega) hv hexact)).mp hrest j hj hij r hr
    · intro h
      have hexact := hround.mpr (h (i + 1) (by omega) le_rfl)
      exact ⟨hexact, (ih (by omega) (butterflyRound_eq comm (by omega) hv hexact)).mpr
        fun j hj hji => h j hj (by omega)⟩

/-- Lane 0 ends with the whole tree if the relay keeps the partial results that the lower half
of the lanes of each round gets from the upper half. -/
theorem butterfly_zero_eq_pairTree {relay : T → T} (him : i ≤ m)
    (hrelay : ∀ v, ∀ l < 2 ^ m, ∀ o < 2 ^ m, exchange v l o = relay (v (l ^^^ o)))
    (hkeep : ∀ j < i, ∀ r < 2 ^ j, relay (pairTree op (2 ^ m) g (2 ^ (j + 1)) (r + 2 ^ j)) =
      pairTree op (2 ^ m) g (2 ^ (j + 1)) (r + 2 ^ j))
    (hv : ∀ l < 2 ^ i, v l = pairTree op (2 ^ m) g (2 ^ i) l) :
    butterfly op exchange (2 ^ i / 2) v 0 = pairTree op (2 ^ m) g 1 0 := by
  induction i generalizing v with
  | zero =>
    have h := hv 0 (by simp)
    simpa [butterfly, halvings_zero] using h
  | succ i ih =>
    have hlt : 2 ^ i < 2 ^ m := Nat.pow_lt_pow_right (by omega) (by omega)
    rw [show 2 ^ (i + 1) / 2 = 2 ^ i from by omega, butterfly_two_pow]
    apply ih (by omega) (fun j hj => hkeep j (by omega))
    intro l hl
    rw [butterflyRound, hrelay v l (hl.trans hlt) _ hlt, xor_two_pow_of_lt hl, hv l (by omega),
      hv (l + 2 ^ i) (by omega), hkeep i (by omega) l hl, pairTree_of_lt (by positivity) hlt,
      show 2 * 2 ^ i = 2 ^ (i + 1) from by ring]

end Exchange

/-- The fold of `a` with `f 0`, …, `f (n - 1)`. -/
def foldRange (op : T → T → T) (a : T) (f : ℕ → T) (n : ℕ) : T :=
  (List.range n).foldl (fun a k => op a (f k)) a

theorem foldRange_eq_prod [CommMonoid T] (a : T) (f : ℕ → T) (n : ℕ) :
    foldRange (· * ·) a f n = a * ∏ k ∈ Finset.range n, f k := by
  induction n with
  | zero => simp [foldRange]
  | succ n ih =>
    unfold foldRange at ih ⊢
    rw [List.range_succ, List.foldl_append, ih, Finset.prod_range_succ, ← mul_assoc]
    rfl

theorem prod_range_blocks [CommMonoid T] (f : ℕ → T) (n b : ℕ) :
    ∏ i ∈ Finset.range n, ∏ j ∈ Finset.range b, f (i * b + j) = ∏ k ∈ Finset.range (n * b), f k := by
  induction n with
  | zero => simp
  | succ n ih => rw [Finset.prod_range_succ, ih, Nat.succ_mul, Finset.prod_range_add]

end Aomp.Foundations

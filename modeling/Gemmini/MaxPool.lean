import Gemmini.Matmul.Blocks

/-!
# Max pooling

`shen_maxpool_nhwc` of `shen_yolov11n_ops.h`.  Repeated with stride 1 and half its kernel as padding, as
the SPPF block does, it is one pooling with a larger kernel: the windows add up, also where they are
clipped at the border.
-/

namespace Gemmini.MaxPool

structure Shape where
  channels : ℕ
  height : ℕ
  width : ℕ

/-- The element for channel `c` of pixel `(y, x)`. -/
def Shape.index (sh : Shape) (y x c : ℕ) : ℕ := (y * sh.width + x) * sh.channels + c

variable (sh : Shape) (kernel stride padding : ℕ) (input : ℕ → BitVec 8)

/-- `if (val > max_val) max_val = val;` -/
def raise (val maxVal : BitVec 8) : BitVec 8 := if val.toInt > maxVal.toInt then val else maxVal

/-- The innermost body: element `(kh, kw)` of the window at `(oh, ow)`. -/
def tap (oh ow c kh kw : ℕ) (maxVal : BitVec 8) : BitVec 8 :=
  let ih : ℤ := oh * stride - padding + kh
  let iw : ℤ := ow * stride - padding + kw
  if ih ≥ 0 ∧ ih < sh.height ∧ iw ≥ 0 ∧ iw < sh.width then
    raise (input (sh.index ih.toNat iw.toNat c)) maxVal
  else maxVal

def maxVal (oh ow c : ℕ) : BitVec 8 :=
  forRange kernel (fun kh => forRange kernel (tap sh stride padding input oh ow c kh)) (-128)

/-- The size of the result along a side of the image. -/
def outSize (side : ℕ) : ℕ := (((side : ℤ) + 2 * padding - kernel).tdiv stride + 1).toNat

/-- The output buffer after `shen_maxpool_nhwc`. -/
def maxpoolNhwc (output : ℕ → BitVec 8) : ℕ → BitVec 8 :=
  forRange (outSize kernel stride padding sh.height) (fun oh =>
    forRange (outSize kernel stride padding sh.width) fun ow => forRange sh.channels fun c =>
      modify ((oh * outSize kernel stride padding sh.width + ow) * sh.channels + c) fun _ =>
        maxVal sh kernel stride padding input oh ow c) output

/-- The buffer after `n` poolings in a row, the `i`-th one into a buffer that holds `buffers i`. -/
def cascade (buffers : ℕ → ℕ → BitVec 8) : ℕ → ℕ → BitVec 8
  | 0 => input
  | n + 1 => maxpoolNhwc sh kernel stride padding (cascade buffers n) (buffers n)

/-! ### The largest element of a window -/

/-- Pixel `(y, x)` is at most `r` away from `(oh, ow)` along both sides. -/
def Near (r oh ow y x : ℕ) : Prop :=
  (y < sh.height ∧ oh ≤ y + r ∧ y ≤ oh + r) ∧ x < sh.width ∧ ow ≤ x + r ∧ x ≤ ow + r

/-- An element of channel `c` in the window, or the least element there is. -/
def Attained (r oh ow c : ℕ) (v : BitVec 8) : Prop :=
  v = -128 ∨ ∃ y x, Near sh r oh ow y x ∧ v = input (sh.index y x c)

/-- The largest element of channel `c` in the window. -/
structure IsMax (r oh ow c : ℕ) (v : BitVec 8) : Prop where
  bound : ∀ y x, Near sh r oh ow y x → (input (sh.index y x c)).toInt ≤ v.toInt
  attained : Attained sh input r oh ow c v

variable {sh kernel stride padding input} {r oh ow c : ℕ} {v v' : BitVec 8}

theorem IsMax.unique (h : IsMax sh input r oh ow c v)
    (h' : IsMax sh input r oh ow c v') : v = v' := by
  have least (x : BitVec 8) : (-128 : BitVec 8).toInt ≤ x.toInt := by
    have : (-128 : BitVec 8).toInt = -128 := by decide
    have := x.le_toInt
    omega
  have le {v v'} (h : IsMax sh input r oh ow c v) (h' : IsMax sh input r oh ow c v') :
      v.toInt ≤ v'.toInt := by
    rcases h.attained with rfl | ⟨y, x, near, rfl⟩
    · exact least v'
    · exact h'.bound y x near
  exact BitVec.eq_of_toInt_eq (le_antisymm (le h h') (le h' h))

section Loops

variable {n : ℕ} {body : ℕ → BitVec 8 → BitVec 8}

theorem forRange_grows (grows : ∀ i s, s.toInt ≤ (body i s).toInt) (s : BitVec 8) :
    s.toInt ≤ (forRange n body s).toInt :=
  forRange_inv (fun _ (s' : BitVec 8) => s.toInt ≤ s'.toInt) le_rfl fun i _ s' le => le.trans (grows i s')

theorem forRange_reaches (grows : ∀ i s, s.toInt ≤ (body i s).toInt) {i : ℕ} (hi : i < n) {v : ℤ}
    (reach : ∀ s, v ≤ (body i s).toInt) (s : BitVec 8) : v ≤ (forRange n body s).toInt := by
  obtain ⟨m, rfl⟩ : ∃ m, n = i + 1 + m := ⟨n - (i + 1), by omega⟩
  rw [forRange_append]
  exact (reach _).trans (forRange_grows (fun j => grows _) _)

end Loops

theorem le_raise (val s : BitVec 8) : s.toInt ≤ (raise val s).toInt ∧ val.toInt ≤ (raise val s).toInt := by
  unfold raise
  split_ifs <;> omega

theorem tap_grows (oh ow c kh kw : ℕ) (s : BitVec 8) :
    s.toInt ≤ (tap sh stride padding input oh ow c kh kw s).toInt := by
  unfold tap
  dsimp only
  split_ifs
  · exact (le_raise _ _).1
  · exact le_rfl

/-- The loops over an odd kernel find the largest element of the window. -/
theorem maxVal_isMax : IsMax sh input r oh ow c (maxVal sh (2 * r + 1) 1 r input oh ow c) where
  bound y x near := by
    obtain ⟨⟨hy, _, _⟩, hx, _, _⟩ := near
    refine forRange_reaches (fun kh => forRange_grows (tap_grows oh ow c kh))
      (show y + r - oh < 2 * r + 1 by omega) (fun s => ?_) _
    refine forRange_reaches (tap_grows oh ow c _) (show x + r - ow < 2 * r + 1 by omega)
      (fun s => ?_) s
    have row : (oh : ℤ) * (1 : ℕ) - r + (y + r - oh : ℕ) = y := by omega
    have col : (ow : ℤ) * (1 : ℕ) - r + (x + r - ow : ℕ) = x := by omega
    rw [tap, row, col, if_pos ⟨by omega, by omega, by omega, by omega⟩]
    exact (le_raise _ _).2
  attained := by
    refine forRange_inv (fun _ => Attained sh input r oh ow c) (.inl rfl) fun kh hkh v found => ?_
    refine forRange_inv (fun _ => Attained sh input r oh ow c) found fun kw hkw v found => ?_
    unfold tap raise
    dsimp only
    split_ifs with inside
    · exact .inr ⟨_, _, ⟨⟨by omega, by omega, by omega⟩, by omega, by omega, by omega⟩, rfl⟩
    · exact found
    · exact found

/-! ### The pooled image -/

theorem outSize_same (r side : ℕ) : outSize (2 * r + 1) 1 r side = side := by
  unfold outSize
  rw [Nat.cast_one, Int.tdiv_one]
  omega

theorem maxpoolNhwc_at (output : ℕ → BitVec 8) {y x : ℕ} (hy : y < sh.height)
    (hx : x < sh.width) (hc : c < sh.channels) :
    maxpoolNhwc sh (2 * r + 1) 1 r input output (sh.index y x c) =
      maxVal sh (2 * r + 1) 1 r input y x c := by
  unfold maxpoolNhwc
  rw [outSize_same, outSize_same]
  refine forRange_inv (fun n (m : ℕ → BitVec 8) => ∀ y < n, ∀ x < sh.width, ∀ c < sh.channels,
    m (sh.index y x c) = maxVal sh (2 * r + 1) 1 r input y x c)
    (fun y hy => absurd hy (Nat.not_lt_zero y)) (fun oh _ m before y hy x hx c hc => ?_) y hy x hx c hc
  -- one row of the result, then the rows before it
  have distinct : ∀ x' < sh.width, ∀ c' < sh.channels, sh.index oh x' c' = sh.index y x c →
      oh = y ∧ x' = x ∧ c' = c := by
    intro x' hx' c' hc' same
    obtain ⟨pixel, channel⟩ := index_inj hc' hc same
    obtain ⟨row, col⟩ := index_inj hx' hx pixel
    exact ⟨row, col, channel⟩
  rcases Nat.lt_succ_iff_lt_or_eq.mp hy with earlier | rfl
  · refine (modifyGrid_of_ne (fun x' hx' c' hc' same => ?_) _ m).trans (before y earlier x hx c hc)
    have := (distinct x' hx' c' hc' same.symm).1
    omega
  · exact modifyGrid_at hx hc (fun x' hx' c' hc' same => (distinct x' hx' c' hc' same).2)
      (fun ow c _ => maxVal sh (2 * r + 1) 1 r input y ow c) m

/-! ### Pooling again -/

/-- A window of the sum of two radii, also at the border, where the pixel between lies in the image. -/
theorem exists_between {n r side a b : ℕ} (ha : a < side) (hb : b < side) (near : a ≤ b + (n + r))
    (near' : b ≤ a + (n + r)) :
    ∃ m < side, (a ≤ m + r ∧ m ≤ a + r) ∧ m ≤ b + n ∧ b ≤ m + n := by
  rcases Nat.le_total a b with le | le
  · exact ⟨min b (a + r), by omega, by omega, by omega⟩
  · exact ⟨max b (a - r), by omega, by omega, by omega⟩

/-- The largest of the largest elements of the windows around the pixels of a window. -/
theorem IsMax.trans {pooled : ℕ → BitVec 8} {n : ℕ} (hoh : oh < sh.height)
    (how : ow < sh.width) (first : ∀ y < sh.height, ∀ x < sh.width,
      IsMax sh input n y x c (pooled (sh.index y x c)))
    (second : IsMax sh pooled r oh ow c v) : IsMax sh input (n + r) oh ow c v where
  bound y x near := by
    obtain ⟨⟨hy, up, down⟩, hx, left, right⟩ := near
    obtain ⟨my, hmy, nearY, withinY⟩ := exists_between hoh hy up down
    obtain ⟨mx, hmx, nearX, withinX⟩ := exists_between how hx left right
    exact ((first my hmy mx hmx).bound y x ⟨⟨hy, withinY⟩, hx, withinX⟩).trans
      (second.bound my mx ⟨⟨hmy, nearY⟩, hmx, nearX⟩)
  attained := by
    rcases second.attained with least | ⟨my, mx, ⟨⟨hmy, _, _⟩, hmx, _, _⟩, found⟩
    · exact .inl least
    · rw [found]
      rcases (first my hmy mx hmx).attained with least | ⟨y, x, ⟨⟨hy, _, _⟩, hx, _, _⟩, at_⟩
      · exact .inl least
      · exact .inr ⟨y, x, ⟨⟨hy, by omega, by omega⟩, hx, by omega, by omega⟩, at_⟩

theorem cascade_isMax (buffers : ℕ → ℕ → BitVec 8) (r n : ℕ) (hc : c < sh.channels) :
    ∀ y < sh.height, ∀ x < sh.width, IsMax sh input (n * r) y x c
      (cascade sh (2 * r + 1) 1 r input buffers n (sh.index y x c)) := by
  induction n with
  | zero =>
    intro y hy x hx
    refine ⟨fun y' x' near => ?_, .inr ⟨y, x, ?_, rfl⟩⟩
    · obtain ⟨⟨_, _, _⟩, _, _, _⟩ := near
      obtain rfl : y' = y := by omega
      obtain rfl : x' = x := by omega
      exact le_rfl
    · exact ⟨⟨hy, by omega, by omega⟩, hx, by omega, by omega⟩
  | succ n ih =>
    intro y hy x hx
    rw [cascade, maxpoolNhwc_at _ hy hx hc, Nat.succ_mul]
    exact maxVal_isMax.trans hy hx ih

/-- `n` poolings with an odd kernel `k`, stride 1 and padding `k / 2` are one with kernel
`n (k - 1) + 1` and padding `n (k - 1) / 2`. -/
theorem cascade_eq_maxpool {k : ℕ} (odd : k % 2 = 1) (n : ℕ) (buffers : ℕ → ℕ → BitVec 8)
    (output : ℕ → BitVec 8) {y x c : ℕ} (hy : y < sh.height) (hx : x < sh.width)
    (hc : c < sh.channels) :
    cascade sh k 1 (k / 2) input buffers n (sh.index y x c) =
      maxpoolNhwc sh (n * (k - 1) + 1) 1 (n * (k - 1) / 2) input output
        (sh.index y x c) := by
  obtain ⟨r, rfl⟩ : ∃ r, k = 2 * r + 1 := ⟨k / 2, by omega⟩
  have half : (2 * r + 1) / 2 = r := by omega
  have twice : n * (2 * r + 1 - 1) = 2 * (n * r) := by
    rw [Nat.add_sub_cancel]
    ring
  rw [half, twice, Nat.mul_div_cancel_left _ Nat.two_pos, maxpoolNhwc_at output hy hx hc]
  exact (cascade_isMax buffers r n hc y hy x hx).unique maxVal_isMax

theorem twice_on_two_by_two :
    cascade ⟨1, 2, 2⟩ 3 1 1 (BitVec.ofNat 8) (fun _ _ => 0) 2 2 =
      maxpoolNhwc ⟨1, 2, 2⟩ 5 1 2 (BitVec.ofNat 8) (fun _ => 0) 2 :=
  cascade_eq_maxpool (y := 1) (x := 0) (c := 0) (by decide) 2 _ _ (by decide) (by decide) (by decide)

end Gemmini.MaxPool

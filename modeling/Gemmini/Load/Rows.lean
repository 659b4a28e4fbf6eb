import Gemmini.Load.Model
import Gemmini.ReservationStation.Ranges

/-!
# The scratchpad rows that an mvin writes

On either path a row request writes one row for each block of columns, `blockStride` rows apart, and the
rows before it for its repeated pixels, down to the start of its half of the scratchpad.
-/

namespace Gemmini.Load

/-! ### Blocks of a row of zeros -/

theorem mem_colCounters {dim cols : Nat} (pos : 0 < dim) {fuel col x : Nat} :
    x ∈ colCounters dim cols fuel col ↔ ∃ k < fuel, x = col + k * dim ∧ (k = 0 ∨ x < cols) := by
  induction fuel generalizing col with
  | zero => simp [colCounters]
  | succ fuel ih =>
    have more : x ∈ (if col + dim > cols - 1 then [] else colCounters dim cols fuel (col + dim)) ↔
        col + dim < cols ∧ x ∈ colCounters dim cols fuel (col + dim) := by
      split_ifs with last
      · simp only [List.not_mem_nil, false_iff]
        omega
      · exact (and_iff_right (by omega)).symm
    rw [colCounters, List.mem_cons, more, ih]
    constructor
    · rintro (rfl | ⟨next, k, hk, rfl, rest⟩)
      · exact ⟨0, Nat.succ_pos _, by simp, .inl rfl⟩
      · refine ⟨k + 1, Nat.succ_lt_succ hk, by rw [Nat.succ_mul]; omega, .inr ?_⟩
        rcases rest with rfl | below
        · simpa using next
        · exact below
    · rintro ⟨k, hk, rfl, rest⟩
      cases k with
      | zero => exact .inl (by simp)
      | succ k =>
        have below := rest.resolve_left (Nat.succ_ne_zero k)
        rw [Nat.succ_mul] at below ⊢
        exact .inr ⟨by omega, k, by omega, by omega, .inr (by omega)⟩

theorem exists_colCounter_iff {dim cols m : Nat} (pos : 0 < dim) (cols_pos : 0 < cols) :
    (∃ x ∈ colCounters dim cols cols 0, x / dim = m) ↔ m < blocksOf dim cols := by
  simp only [mem_colCounters pos]
  constructor
  · rintro ⟨x, ⟨k, _, rfl, first⟩, rfl⟩
    rw [Nat.zero_add] at first ⊢
    rw [Nat.mul_div_cancel k pos]
    rcases first with rfl | below
    · exact blocksOf_pos pos cols_pos
    · exact (lt_blocksOf pos).mpr below
  · intro block
    refine ⟨0 + m * dim, ⟨m, block.trans_le (blocksOf_le pos cols), rfl, .inr ?_⟩, ?_⟩
    · rw [Nat.zero_add]
      exact (lt_blocksOf pos).mp block
    · rw [Nat.zero_add, Nat.mul_div_cancel m pos]

/-! ### Packets of a row from memory -/

theorem foldl_max_le_iff {l : List Nat} {a n : Nat} :
    l.foldl (fun acc bytes => if bytes > acc then bytes else acc) a ≤ n ↔
      a ≤ n ∧ ∀ bytes ∈ l, bytes ≤ n := by
  induction l generalizing a with
  | nil => simp
  | cons x l ih =>
    rw [List.foldl_cons, ih, List.forall_mem_cons]
    split_ifs with larger <;> constructor <;> rintro ⟨h, rest⟩ <;> refine ⟨by omega, ?_⟩
    · exact ⟨h, rest⟩
    · exact rest.2
    · exact ⟨by omega, rest⟩
    · exact rest.2

variable {p : ArrayConfig}

theorem smallest_mem_readSizes : max p.alignedTo p.dmaBusBytes ∈ readSizes p := by
  have aligned := beq_iff_eq.mp p.alignedTo_pow
  have bus := beq_iff_eq.mp p.dmaBusBytes_pow
  simp only [readSizes, List.mem_filter, List.mem_map, List.mem_range]
  refine ⟨⟨⟨0, Nat.succ_pos _, by simp⟩, ?_⟩, ?_⟩
  · rcases max_choice p.alignedTo p.dmaBusBytes with h | h <;> rw [h]
    · exact p.alignedTo_pow
    · exact p.dmaBusBytes_pow
  · -- the larger of two powers of two is a multiple of the other
    rw [beq_iff_eq]
    apply Nat.mod_eq_zero_of_dvd
    rcases le_total p.alignedTo p.dmaBusBytes with h | h
    · rw [max_eq_right h]
    · rw [max_eq_left h, ← aligned, ← bus]
      rw [← aligned, ← bus] at h
      exact pow_dvd_pow 2 ((Nat.pow_le_pow_iff_right Nat.one_lt_two).mp h)

theorem readBytesRead_le (vaddr left : Nat) : readBytesRead p vaddr left ≤ left := by
  refine foldl_max_le_iff.mpr ⟨Nat.zero_le _, fun bytes h => ?_⟩
  obtain ⟨s, _, rfl⟩ := List.mem_map.mp h
  exact min_le_right _ _

theorem readBytesRead_pos (vaddr : Nat) {left : Nat} (some' : 0 < left) :
    0 < readBytesRead p vaddr left := by
  have size_pos : 0 < max p.alignedTo p.dmaBusBytes := by
    have aligned := beq_iff_eq.mp p.alignedTo_pow
    exact lt_max_of_lt_left (aligned ▸ Nat.two_pow_pos _)
  have at_least := (foldl_max_le_iff.mp (le_refl (readBytesRead p vaddr left))).2 _
    (List.mem_map_of_mem smallest_mem_readSizes)
  have inside := Nat.mod_lt vaddr size_pos
  refine lt_of_lt_of_le (lt_min ?_ some') at_least
  omega

theorem mem_packets {len fuel vaddr first j n : Nat} (left : first < len)
    (h : (j, n) ∈ packets p len fuel vaddr first) : first ≤ j ∧ j + n ≤ len := by
  induction fuel generalizing vaddr first with
  | zero => simp [packets] at h
  | succ fuel ih =>
    have le := readBytesRead_le (p := p) vaddr (len - first)
    rw [packets, List.mem_cons] at h
    rcases h with h | h
    · obtain ⟨rfl, rfl⟩ := Prod.mk.injEq .. ▸ h
      omega
    · split_ifs at h with last
      · simp at h
      · have rest := ih (by omega) h
        omega

theorem exists_packet {len fuel first b : Nat} (vaddr : Nat) (enough : len - first ≤ fuel)
    (from_first : first ≤ b) (inside : b < len) :
    ∃ j n, (j, n) ∈ packets p len fuel vaddr first ∧ j ≤ b ∧ b < j + n := by
  induction fuel generalizing vaddr first with
  | zero => omega
  | succ fuel ih =>
    have pos : 0 < readBytesRead p vaddr (len - first) := readBytesRead_pos vaddr (by omega)
    rcases Nat.lt_or_ge b (first + readBytesRead p vaddr (len - first)) with here | later
    · exact ⟨_, _, List.mem_cons_self, from_first, here⟩
    · obtain ⟨j, n, mem, within⟩ := ih (vaddr + readBytesRead p vaddr (len - first)) (by omega) later
      refine ⟨j, n, List.mem_cons_of_mem _ ?_, within⟩
      rw [if_neg (by omega)]
      exact mem

theorem mem_sent {w offset bytes fuel first x : Nat} (left : first < bytes)
    (h : x ∈ sent w offset bytes fuel first) : x < bytes := by
  induction fuel generalizing first with
  | zero => simp [sent] at h
  | succ fuel ih =>
    rw [sent, List.mem_cons] at h
    rcases h with rfl | h
    · exact left
    · by_cases last : min (first + (w - if first = 0 then offset else 0)) bytes = bytes
      · simp [last] at h
      · rw [if_neg last] at h
        exact ih (lt_of_le_of_ne (min_le_right _ _) last) h

/-- The merger sends the row that holds a byte of its packet: what it sends at a time ends with the
packet or at the end of a row. -/
theorem exists_sent {w offset bytes fuel first y : Nat} (small : offset < w)
    (aligned : first = 0 ∨ w ∣ offset + first) (enough : bytes - first ≤ fuel) (after : first ≤ y)
    (inside : y < bytes) :
    ∃ x ∈ sent w offset bytes fuel first, (offset + x) / w = (offset + y) / w := by
  induction fuel generalizing first with
  | zero => omega
  | succ fuel ih =>
    set chunk := w - if first = 0 then offset else 0 with chunk_eq
    have chunk_pos : 0 < chunk := by split_ifs at chunk_eq <;> omega
    have aligned' : w ∣ offset + (first + chunk) := by
      rcases aligned with rfl | aligned
      · rw [chunk_eq, if_pos rfl, show offset + (0 + (w - offset)) = w by omega]
      · split_ifs at chunk_eq with start
        · rw [chunk_eq, start, show offset + (0 + (w - offset)) = w by omega]
        · rw [chunk_eq, Nat.sub_zero, ← Nat.add_assoc]
          exact Nat.dvd_add_self_right.mpr aligned
    rcases Nat.lt_or_ge y (first + chunk) with here | later
    · refine ⟨first, List.mem_cons_self, ?_⟩
      obtain ⟨q, hq⟩ := aligned'
      have same : ∀ z, first ≤ z → z < first + chunk → (offset + z) / w = q - 1 := by
        intro z low high
        have q_pos : q ≠ 0 := by
          rintro rfl
          rw [Nat.mul_zero] at hq
          omega
        obtain ⟨q, rfl⟩ := Nat.exists_eq_succ_of_ne_zero q_pos
        rw [Nat.mul_succ] at hq
        apply Nat.div_eq_of_lt_le
        · rw [Nat.succ_sub_one, Nat.mul_comm]
          rcases aligned with rfl | ⟨m, hm⟩
          · rw [if_pos rfl] at chunk_eq
            omega
          · split_ifs at chunk_eq with start
            · have : w * q = 0 := by omega
              omega
            · omega
        · rw [Nat.succ_sub_one, Nat.succ_mul, Nat.mul_comm]
          omega
      rw [same first le_rfl (by omega), same y after here]
    · have next : min (first + chunk) bytes = first + chunk := min_eq_left (by omega)
      obtain ⟨x, mem, same⟩ := ih (.inr aligned') (by omega) later
      refine ⟨x, List.mem_cons_of_mem _ ?_, same⟩
      rw [← chunk_eq, next, if_neg (by omega)]
      exact mem

theorem mem_streamReader {req : ReadRequest} (narrow : req.hasAccBitwidth = false)
    (cols_pos : 0 < req.cols) {row : Nat} :
    row ∈ streamReader p req ↔ ∃ m < blocksOf p.dim req.cols,
      row = (req.laddr.row p.geometry + req.blockStride * m) %
        2 ^ log2Up (max p.geometry.spRows p.geometry.accRows) := by
  have w_eq : rowBytes p req = p.dim * p.inputBytes := by simp [rowBytes, narrow, ArrayConfig.spadRowBytes]
  have len_eq : lenBytes p req = req.cols * p.inputBytes := by simp [lenBytes, narrow]
  have w_pos : 0 < p.dim * p.inputBytes := p.spadRowBytes_pos
  have len_pos : 0 < req.cols * p.inputBytes := Nat.mul_pos cols_pos p.inputBytes_pos
  have block_iff : ∀ m, m < blocksOf p.dim req.cols ↔
      m * (p.dim * p.inputBytes) < req.cols * p.inputBytes := by
    intro m
    rw [lt_blocksOf p.dim_pos, ← Nat.mul_assoc]
    exact (Nat.mul_lt_mul_right p.inputBytes_pos).symm
  -- the address of a byte: the block of its packet plus the block within the packet
  have block_eq : ∀ j x, j / (p.dim * p.inputBytes) + (j % (p.dim * p.inputBytes) + x) /
      (p.dim * p.inputBytes) = (j + x) / (p.dim * p.inputBytes) := by
    intro j x
    have split := Nat.div_add_mod j (p.dim * p.inputBytes)
    conv_rhs => rw [← split, Nat.add_assoc, Nat.mul_add_div w_pos]
  simp only [streamReader, mergedRows, List.mem_flatMap, List.mem_map, w_eq, len_eq]
  constructor
  · rintro ⟨⟨j, n⟩, packet, x, mem, rfl⟩
    obtain ⟨_, within⟩ := mem_packets len_pos packet
    have n_pos : 0 < n := by
      by_contra empty
      have : n = 0 := by omega
      subst this
      simp [sent] at mem
    have inside := mem_sent n_pos mem
    refine ⟨(j + x) / (p.dim * p.inputBytes), (block_iff _).mpr ?_, ?_⟩
    · exact (Nat.div_mul_le_self _ _).trans_lt (by omega)
    · rw [Nat.mod_add_mod, Nat.add_assoc, ← Nat.mul_add, block_eq]
  · rintro ⟨m, block, rfl⟩
    obtain ⟨j, n, packet, low, high⟩ := exists_packet (p := p) req.vaddr
      (Nat.sub_le (req.cols * p.inputBytes) 0) (Nat.zero_le _) ((block_iff m).mp block)
    obtain ⟨x, mem, same⟩ := exists_sent (y := m * (p.dim * p.inputBytes) - j)
      (Nat.mod_lt j w_pos) (.inl rfl) (Nat.sub_le n 0) (Nat.zero_le _) (by omega)
    refine ⟨(j, n), packet, x, mem, ?_⟩
    rw [Nat.mod_add_mod, Nat.add_assoc, ← Nat.mul_add, same, block_eq,
      show j + (m * (p.dim * p.inputBytes) - j) = m * (p.dim * p.inputBytes) by omega,
      Nat.mul_div_cancel m w_pos]

/-! ### Repeated pixels -/

/-- Row `x` is repeated `k` rows below itself, at row `n` of its own half. -/
def Repeats (g : Geometry) (x k n : Nat) : Prop :=
  (if x < g.spRows / 2 then 0 else g.spRows / 2) + k ≤ x ∧ n = x - k

namespace PixelRepeater

variable {g : Geometry} {laddr : LocalAddr}

theorem exists_resp_iff (sp : laddr.isAccAddr = false) (named : laddr.data < g.spRows) {k n : Nat} :
    (∃ a ∈ resp g laddr k, a.row g = n) ↔ Repeats g laddr.data k n := by
  have bits : g.spRows ≤ 2 ^ g.spAddrBits := le_two_pow_log2Ceil _
  have bits' := g.sp_le
  have full : laddr.fullSpAddr g = laddr.data := Nat.mod_eq_of_lt (by omega)
  -- both halves: the same subtraction with their own floor
  have out : spAddr g laddr k =
      laddr.floorSub g k (if laddr.data < g.spRows / 2 then 0 else g.spRows / 2) := by
    unfold spAddr
    rw [full]
    split_ifs <;> rfl
  unfold Repeats resp
  rw [out]
  generalize (if laddr.data < g.spRows / 2 then 0 else g.spRows / 2) = floor
  simp only [sp, Bool.false_eq_true, if_false, LocalAddr.floorSub, decide_eq_true_eq]
  split_ifs with below
  · simp only [List.not_mem_nil, false_and, exists_false, false_iff]
    omega
  · have row : ∀ a : LocalAddr, a.isAccAddr = false →
        a.data = (laddr.data - k) % 2 ^ g.maxAddrBits → a.row g = laddr.data - k := by
      intro a isSp data
      unfold LocalAddr.row Geometry.addrBits
      rw [isSp, data, Nat.mod_eq_of_lt (show laddr.data - k < 2 ^ g.maxAddrBits by omega)]
      exact Nat.mod_eq_of_lt (show laddr.data - k < 2 ^ g.spAddrBits by omega)
    simp only [List.mem_singleton, exists_eq_left]
    rw [row _ rfl rfl]
    omega

theorem exists_all_iff (sp : laddr.isAccAddr = false) (named : laddr.data < g.spRows)
    {repeats n : Nat} (pos : 0 < repeats) :
    (∃ a ∈ all g laddr repeats, a.row g = n) ↔ ∃ k < repeats, Repeats g laddr.data k n := by
  have counted : ∀ top, (∃ a ∈ resps g laddr top, a.row g = n) ↔
      ∃ k ≤ top, Repeats g laddr.data k n := by
    intro top
    induction top with
    | zero => simp [resps, exists_resp_iff sp named]
    | succ top ih =>
      simp only [resps, List.mem_append, or_and_right, exists_or, ih, exists_resp_iff sp named]
      constructor
      · rintro (here | ⟨k, le, below⟩)
        · exact ⟨top + 1, le_rfl, here⟩
        · exact ⟨k, by omega, below⟩
      · rintro ⟨k, le, touched⟩
        rcases Nat.lt_or_ge k (top + 1) with less | same
        · exact .inr ⟨k, by omega, touched⟩
        · exact .inl (by rwa [show top + 1 = k by omega])
  rw [all, counted]
  exact exists_congr fun k => and_congr_left fun _ => by omega

end PixelRepeater

/-! ### Requests and mvins -/

theorem exists_mem_flatMap {α β : Type*} {l : List α} {f : α → List β} {P : β → Prop} :
    (∃ b ∈ l.flatMap f, P b) ↔ ∃ a ∈ l, ∃ b ∈ f a, P b := by
  simp only [List.mem_flatMap]
  grind

theorem exists_mem_map {α β : Type*} {l : List α} {f : α → β} {P : β → Prop} :
    (∃ b ∈ l.map f, P b) ↔ ∃ a ∈ l, P (f a) := by
  simp [List.mem_map]

theorem add_data_of_lt {g : Geometry} {laddr : LocalAddr} {n : Nat}
    (inside : laddr.data + n < g.spRows) : (laddr.add g n).data = laddr.data + n := by
  have bits : g.spRows ≤ 2 ^ g.spAddrBits := le_two_pow_log2Ceil _
  have bits' := g.sp_le
  exact Nat.mod_eq_of_lt (show laddr.data + n < 2 ^ g.maxAddrBits by omega)

theorem exists_requestRow_iff {req : ReadRequest} (sp : req.laddr.isAccAddr = false)
    (narrow : req.hasAccBitwidth = false) (cols_pos : 0 < req.cols)
    (pixels : 0 < req.pixelRepeats) (zeros : req.allZeros = true → req.repeats = 0)
    (inside : req.laddr.data + req.repeats + req.blockStride * (blocksOf p.dim req.cols - 1) <
      p.geometry.spRows) {n : Nat} :
    (∃ a ∈ requestRows p req, a.row p.geometry = n) ↔
      ∃ q ≤ req.repeats, ∃ m < blocksOf p.dim req.cols, ∃ k < req.pixelRepeats,
        Repeats p.geometry (req.laddr.data + q + req.blockStride * m) k n := by
  have bound : ∀ q ≤ req.repeats, ∀ m < blocksOf p.dim req.cols,
      req.laddr.data + q + req.blockStride * m < p.geometry.spRows := by
    intro q hq m hm
    have := Nat.mul_le_mul_left req.blockStride (show m ≤ blocksOf p.dim req.cols - 1 by omega)
    omega
  rw [requestRows, exists_mem_flatMap]
  cases zero : req.allZeros with
  | true =>
    have none := zeros zero
    have served : ∀ m < blocksOf p.dim req.cols,
        (∃ a ∈ PixelRepeater.all p.geometry (req.laddr.add p.geometry (req.blockStride * m))
          req.pixelRepeats, a.row p.geometry = n) ↔
          ∃ k < req.pixelRepeats,
            Repeats p.geometry (req.laddr.data + 0 + req.blockStride * m) k n := by
      intro m block
      have named := bound 0 (Nat.zero_le _) m block
      have data : (req.laddr.add p.geometry (req.blockStride * m)).data =
          req.laddr.data + req.blockStride * m := add_data_of_lt named
      have isSp : (req.laddr.add p.geometry (req.blockStride * m)).isAccAddr = false := sp
      rw [Nat.add_zero, ← data]
      exact PixelRepeater.exists_all_iff isSp (data ▸ named) pixels
    simp only [if_true, zeroWriter, exists_mem_map]
    constructor
    · rintro ⟨col, visited, a, mem, row⟩
      have block := (exists_colCounter_iff p.dim_pos cols_pos).mp ⟨col, visited, rfl⟩
      exact ⟨0, Nat.zero_le _, _, block, (served _ block).mp ⟨a, mem, row⟩⟩
    · rintro ⟨q, hq, m, block, touched⟩
      obtain ⟨col, visited, rfl⟩ := (exists_colCounter_iff p.dim_pos cols_pos).mpr block
      obtain rfl : q = 0 := by omega
      exact ⟨col, visited, (served _ block).mpr touched⟩
  | false =>
    have first : req.laddr.row p.geometry = req.laddr.data := by
      have bits : p.geometry.spRows ≤ 2 ^ p.geometry.spAddrBits := le_two_pow_log2Ceil _
      unfold LocalAddr.row Geometry.addrBits
      rw [sp]
      exact Nat.mod_eq_of_lt (show req.laddr.data < 2 ^ p.geometry.spAddrBits by omega)
    have row_eq : ∀ m < blocksOf p.dim req.cols, (req.laddr.row p.geometry + req.blockStride * m) %
        2 ^ log2Up (max p.geometry.spRows p.geometry.accRows) =
          req.laddr.data + req.blockStride * m := by
      intro m block
      have := bound 0 (Nat.zero_le _) m block
      have bits := (le_max_left p.geometry.spRows p.geometry.accRows).trans (le_two_pow_log2Up _)
      rw [first]
      exact Nat.mod_eq_of_lt (by omega)
    have data : ∀ q ≤ req.repeats, ∀ m < blocksOf p.dim req.cols,
        ((bareAddr (req.laddr.data + req.blockStride * m)).add p.geometry q).data =
          req.laddr.data + q + req.blockStride * m := by
      intro q hq m block
      have := bound q hq m block
      rw [add_data_of_lt (by simp only [bareAddr]; omega)]
      simp only [bareAddr]
      omega
    simp only [Bool.false_eq_true, if_false, exists_mem_flatMap, scaled, exists_mem_map,
      List.mem_reverse, List.mem_range]
    constructor
    · rintro ⟨row, read, q, hq, a, mem, same⟩
      obtain ⟨m, block, rfl⟩ := (mem_streamReader narrow cols_pos).mp read
      rw [row_eq m block] at mem
      refine ⟨q, by omega, m, block, ?_⟩
      rw [← data q (by omega) m block]
      exact (PixelRepeater.exists_all_iff rfl
        ((data q (by omega) m block).symm ▸ bound q (by omega) m block) pixels).mp ⟨a, mem, same⟩
    · rintro ⟨q, hq, m, block, touched⟩
      refine ⟨_, (mem_streamReader narrow cols_pos).mpr ⟨m, block, rfl⟩, q, by omega, ?_⟩
      rw [row_eq m block, PixelRepeater.exists_all_iff rfl
        ((data q hq m block).symm ▸ bound q hq m block) pixels, data q hq m block]
      exact touched

theorem exists_rowWritten_iff {r : Regs} {c : Mvin p} (sp : c.localaddr.isAccAddr = false)
    (pixels : 0 < r.pixelRepeats c.id)
    (inside : c.localaddr.data + c.rows + r.blockStrides c.id * (blocksOf p.dim c.cols - 1) ≤
      p.geometry.spRows) {n : Nat} :
    (∃ a ∈ rowsWritten r c, a.row p.geometry = n) ↔
      ∃ i < c.rows, ∃ m < blocksOf p.dim c.cols, ∃ k < r.pixelRepeats c.id,
        Repeats p.geometry (c.localaddr.data + i + r.blockStrides c.id * m) k n := by
  have rows_pos : 0 < c.rows := c.rows_pos
  have data : ∀ i < c.rows, (request r c i).laddr.data = c.localaddr.data + i := fun i hi =>
    add_data_of_lt (by omega)
  have isSp : ∀ i, (request r c i).laddr.isAccAddr = false := fun _ => sp
  have narrow : ∀ i, (request r c i).hasAccBitwidth = false := fun i => by
    simp [request, sp]
  rw [rowsWritten, exists_mem_flatMap]
  simp only [requests, exists_mem_map, List.mem_range]
  by_cases once : r.strides c.id = 0 ∧ c.allZeros = false
  · -- a single request, repeated by the scaler
    have repeats : (request r c 0).repeats = c.rows - 1 := by simp [request, once]
    have one := exists_requestRow_iff (p := p) (n := n) (isSp 0) (narrow 0)
      c.cols_pos pixels (fun zero => by simp [request, once.2] at zero)
      (by rw [data 0 rows_pos, repeats]; simp only [request]; omega)
    rw [data 0 rows_pos, repeats] at one
    simp only [actualRowsRead, once, and_self, if_true, Nat.lt_one_iff, exists_eq_left]
    refine one.trans (exists_congr fun q => ?_)
    rw [Nat.add_zero, Nat.le_sub_one_iff_lt rows_pos]
    exact Iff.rfl
  · have repeats : ∀ i, (request r c i).repeats = 0 := fun i => by simp [request, once]
    simp only [actualRowsRead, once, if_false]
    refine exists_congr fun i => and_congr_right fun hi => ?_
    have each := exists_requestRow_iff (p := p) (n := n) (isSp i) (narrow i)
      c.cols_pos pixels (fun _ => repeats i)
      (by rw [data i hi, repeats]; simp only [request]; omega)
    rw [data i hi, repeats] at each
    rw [each]
    simp only [Nat.le_zero, exists_eq_left, Nat.add_zero]
    exact Iff.rfl

end Gemmini.Load

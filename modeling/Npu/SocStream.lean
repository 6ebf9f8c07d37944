import Npu.SocLoad

/-!
# Npu.SocStream

A batch on the system: `npu_load_matrix` and `npu_wait_execution` behind a transfer that
`npu_get_matrix` has committed.

While the rows stream (`Streams`) the flits stored so far are the first words of the products, and
the row counter counts them.  The transfer ends with its length or with the first EOP, so what is
stored of `n` rows are the rows up to the first EOP, `rowsDelivered`.  If that is all of
them the system is at rest again (`Streams.rests`).
-/

namespace Npu

open ByteMem Lanes Machine

/-! ## the row counter -/

namespace StreamCtrl

variable {c : StreamCtrl} {inp : In}

/-- The flits of the current row that are sent. -/
def flitIndex (c : StreamCtrl) : Nat := if c.txActive then c.txCount.toNat else 0

/-- A flit moves the index on, the last one of a row the row counter. -/
theorem flitIndex_step (h : c.Wf) (inp : In) :
    (c.sentFlit inp = [] ∧ (c.step inp).txRowCount = c.txRowCount ∧
        (c.step inp).flitIndex = c.flitIndex) ∨
      ∃ flit, c.sentFlit inp = [flit] ∧
        (flit.endofpacket = true ↔ c.flitIndex = 3 ∧ 0 < inp.seqTotalRows ∧
          c.txRowCount = inp.seqTotalRows - 1) ∧
        if c.flitIndex = 3 then
          (c.step inp).txRowCount = c.nextRowCount inp.seqTotalRows ∧ (c.step inp).flitIndex = 0
        else (c.step inp).txRowCount = c.txRowCount ∧ (c.step inp).flitIndex = c.flitIndex + 1 := by
  have hrow : (c.step inp).txRowCount = (c.txStep inp).txRowCount := rfl
  have hidx : (c.step inp).flitIndex = (c.txStep inp).flitIndex := rfl
  rw [hrow, hidx, sentFlit, stSourceValid, h.sending]
  cases hactive : c.txActive with
  | false =>
      left
      cases hempty : c.fifoEmpty <;> simp [txStep, flitIndex, hactive, hempty]
  | true =>
      cases hready : inp.stSourceReady with
      | false =>
          left
          rw [txStep_of_held h (by rw [stSourceValid, h.sending, hactive]) hready]
          exact ⟨rfl, rfl, rfl⟩
      | true =>
          right
          have hindex : c.flitIndex = c.txCount.toNat := by rw [flitIndex, hactive, if_pos rfl]
          refine ⟨_, rfl, ?_, ?_⟩
          · have hthree : c.flitIndex = 3 ↔ c.txCount = 3 := by
              rw [hindex, BitVec.toNat_eq]
              rfl
            simp [stSourceEndofpacket, h.sending, hactive, hthree, and_left_comm]
          · cases hlast : c.txCount == 3 with
            | true =>
                have hthree : c.flitIndex = 3 := by rw [hindex, beq_iff_eq.mp hlast]; rfl
                rw [if_pos hthree]
                have hthree' : c.txCount = 3 := beq_iff_eq.mp hlast
                cases hempty : c.fifoEmpty <;>
                  simp [txStep, flitIndex, hactive, hready, hthree', hempty, h.sending]
            | false =>
                obtain ⟨hlt, hnext⟩ := toNat_txCount_succ h hlast
                rw [if_neg (by omega), hindex]
                simp only [txStep, flitIndex, hactive, hready, hlast, h.sending, hnext,
                  Bool.not_true, Bool.false_eq_true, if_false, if_true, Bool.and_self, and_self]

end StreamCtrl

/-- Of `n` rows, those up to the first EOP under `SEQ_TOTAL_ROWS` `R` from row count `c` on. -/
def rowsDelivered (R c : BitVec 32) (n : Nat) : Nat :=
  if R = 0 then n else min n ((R - 1 - c).toNat + 1)

/-- The row counter behind `n` rows, without an EOP before the last of them. -/
def rowCountAfter (R c : BitVec 32) (n : Nat) : BitVec 32 :=
  if R ≠ 0 ∧ c + BitVec.ofNat 32 n = R then 0 else c + BitVec.ofNat 32 n

theorem rowsDelivered_le (R c : BitVec 32) (n : Nat) : rowsDelivered R c n ≤ n := by
  rw [rowsDelivered]
  split
  · exact le_rfl
  · exact Nat.min_le_left _ _

theorem eop_iff {R c : BitVec 32} {q : Nat} (hq : q < 2 ^ 32) :
    c + BitVec.ofNat 32 q = R - 1 ↔ q = (R - 1 - c).toNat := by
  have hsub : c + BitVec.ofNat 32 q = R - 1 ↔ BitVec.ofNat 32 q = R - 1 - c := by
    constructor
    · intro h
      rw [← h, BitVec.add_comm, BitVec.add_sub_cancel]
    · intro h
      rw [h, BitVec.add_comm, BitVec.sub_add_cancel]
  rw [hsub, BitVec.toNat_eq, BitVec.toNat_ofNat, Nat.mod_eq_of_lt hq]

/-- A row that is delivered is the last one iff it is the last of all or carries EOP. -/
theorem rowsDelivered_iff {R c : BitVec 32} {n q : Nat} (hn : n < 2 ^ 32)
    (hq : q < rowsDelivered R c n) :
    (q + 1 = n ∨ (R ≠ 0 ∧ c + BitVec.ofNat 32 q = R - 1)) ↔ q + 1 = rowsDelivered R c n := by
  have hq32 : q < 2 ^ 32 := (hq.trans_le (rowsDelivered_le R c n)).trans hn
  rw [eop_iff hq32]
  rw [rowsDelivered] at hq ⊢
  generalize (R - 1 - c).toNat = x at hq ⊢
  clear hn hq32
  by_cases hR : R = 0
  · rw [if_pos hR]
    simp [hR]
  · rw [if_neg hR] at hq ⊢
    simp only [ne_eq, hR, not_false_eq_true, true_and]
    omega

namespace Soc

/-! ## the transfer -/

/-- Of a transfer of `n` rows to `o`, `k` flits are taken, and `surplus` flits behind its end: with
the row counter and the index of the serializer, and what is left of the transfer. -/
inductive Written (R c : BitVec 32) (o n k surplus : Nat) (row : BitVec 32) (index : Nat) :
    List Transfer → Prop where
  | more : k < 4 * rowsDelivered R c n → surplus = 0 → row = c + BitVec.ofNat 32 (k / 4) →
      index = k % 4 →
      Written R c o n k surplus row index [{ address := o + 8 * k, length := 32 * n - 8 * k }]
  | done : k = 4 * rowsDelivered R c n →
      (surplus = 0 → row = rowCountAfter R c (rowsDelivered R c n)) →
      Written R c o n k surplus row index []

theorem written_zero {R c : BitVec 32} {o n : Nat} (hn : 0 < rowsDelivered R c n) :
    Written R c o n 0 0 c 0 [{ address := o, length := 32 * n }] :=
  .more (by omega) rfl (by simp) rfl

/-- One more flit. -/
theorem Written.next {R c : BitVec 32} {o n k surplus : Nat} {row row' : BitVec 32} {index index' : Nat}
    {t : Transfer} {flit : Flit} (hn : n < 2 ^ 32) (h : Written R c o n k surplus row index [t])
    (heop : flit.endofpacket = true ↔ index = 3 ∧ 0 < R ∧ row = R - 1)
    (hrow : if index = 3 then
        row' = (if decide (0 < R) && row == R - 1 then 0 else row + 1) ∧ index' = 0
      else row' = row ∧ index' = index + 1) :
    Written R c o n (k + 1) surplus row' index' (t.next flit) := by
  obtain ⟨m, hm⟩ : ∃ m, m = rowsDelivered R c n := ⟨_, rfl⟩
  have hle : m ≤ n := hm ▸ rowsDelivered_le R c n
  have hpos : 0 < R ↔ R ≠ 0 := by
    rw [BitVec.lt_def, ne_eq, BitVec.toNat_eq]
    exact Nat.pos_iff_ne_zero
  cases h with
  | more hk hsurplus hrowk hindex =>
      rw [← hm] at hk
      have hlast := rowsDelivered_iff (q := k / 4) hn (by rw [← hm]; omega)
      rw [← hm, ← hrowk] at hlast
      rw [hpos] at heop
      have hsucc : c + BitVec.ofNat 32 (k / 4 + 1) = row + 1 := by
        rw [hrowk, BitVec.add_assoc, BitVec.ofNat_add]
        rfl
      -- the transfer ends with the last row delivered
      have hend : (32 * n - 8 * k ≤ 8 ∨ flit.endofpacket = true) ↔ k + 1 = 4 * m := by
        rw [heop, hindex]
        constructor
        · rintro (hlen | ⟨hthree, heop'⟩)
          · omega
          · have := hlast.mp (.inr heop')
            omega
        · intro hkm
          rcases hlast.mpr (by omega) with hall | heop'
          · exact .inl (by omega)
          · exact .inr ⟨by omega, heop'⟩
      by_cases hfinal : k + 1 = 4 * m
      · have hnext : Transfer.next
            { address := o + 8 * k, length := 32 * n - 8 * k } flit = [] := by
          have hor := hend.mpr hfinal
          rw [Transfer.next, if_pos]
          simpa using hor
        rw [if_pos (by omega)] at hrow
        rw [hnext]
        refine .done (by rw [← hm]; exact hfinal) fun _ => ?_
        have hdiv : m = k / 4 + 1 := by omega
        rw [hrow.1, ← hm, rowCountAfter, hdiv, hsucc]
        have hwrap : row = R - 1 ↔ row + 1 = R := by
          constructor
          · rintro rfl
            exact BitVec.sub_add_cancel R 1
          · rintro rfl
            exact (BitVec.add_sub_cancel row 1).symm
        simp only [hpos, hwrap, beq_eq_decide, Bool.and_eq_true, decide_eq_true_eq]
      · have hnext : Transfer.next
            { address := o + 8 * k, length := 32 * n - 8 * k } flit =
            [{ address := o + 8 * (k + 1), length := 32 * n - 8 * (k + 1) }] := by
          have hnot := fun hor => hfinal (hend.mp hor)
          have haddr : o + 8 * k + 8 = o + 8 * (k + 1) := by omega
          have hlen : 32 * n - 8 * k - 8 = 32 * n - 8 * (k + 1) := by omega
          rw [Transfer.next, if_neg (by simpa using hnot), haddr, hlen]
        have hnoeop : ¬ (index = 3 ∧ R ≠ 0 ∧ row = R - 1) := fun h =>
          hfinal (hend.mp (.inr (heop.mpr h)))
        rw [hnext]
        refine .more (by omega) hsurplus ?_ ?_
        · by_cases hthree : index = 3
          · have hrow' : ¬ (R ≠ 0 ∧ row = R - 1) := fun h => hnoeop ⟨hthree, h⟩
            have hdiv : (k + 1) / 4 = k / 4 + 1 := by omega
            rw [if_pos hthree] at hrow
            rw [hrow.1, if_neg (by
              simpa only [Bool.and_eq_true, decide_eq_true_eq, beq_iff_eq, hpos] using hrow'),
              hdiv, hsucc]
          · have hdiv : (k + 1) / 4 = k / 4 := by omega
            rw [if_neg hthree] at hrow
            rw [hrow.1, hrowk, hdiv]
        · by_cases hthree : index = 3
          · rw [if_pos hthree] at hrow
            omega
          · rw [if_neg hthree] at hrow
            omega

theorem Written.length_le {R c row : BitVec 32} {o n k surplus index : Nat} {ts : List Transfer}
    (h : Written R c o n k surplus row index ts) : k ≤ 4 * n := by
  have hle := rowsDelivered_le R c n
  cases h with
  | more hk => omega
  | done hk => omega

/-- With all flits of all rows taken the transfer is done. -/
theorem Written.eq_nil {R c row : BitVec 32} {o n k surplus index : Nat} {ts : List Transfer}
    (h : Written R c o n k surplus row index ts) (hk : 4 * n ≤ k + surplus) : ts = [] := by
  have hle := rowsDelivered_le R c n
  cases h with
  | more hlt hsurplus => omega
  | done => rfl

end Soc

/-! ## stores -/

theorem storeFlits_append (mem : Mem) (addr : Nat) (flits flits' : List (BitVec 64)) :
    storeFlits mem addr (flits ++ flits') =
      storeFlits (storeFlits mem addr flits) (addr + 8 * flits.length) flits' := by
  induction flits generalizing mem addr with
  | nil => rfl
  | cons flit flits ih =>
      have haddr : addr + 8 + 8 * flits.length = addr + 8 * (flits.length + 1) := by omega
      rw [List.cons_append, storeFlits, storeFlits, ih, haddr, List.length_cons]

/-- Behind the flits nothing is stored. -/
theorem storeFlits_frame_ge (mem : Mem) {addr : Nat} (flits : List (BitVec 64)) {a : Nat}
    (h : addr + 8 * flits.length ≤ a) : storeFlits mem addr flits a = mem a := by
  induction flits generalizing mem addr with
  | nil => rfl
  | cons flit flits ih =>
      rw [List.length_cons] at h
      rw [storeFlits, ih _ (by omega), store_of_not_mem _ _ (by omega)]

/-- The places of flits that follow each other. -/
def flitsAt (addr : Nat) : List (BitVec 64) → List (Nat × BitVec 64)
  | [] => []
  | flit :: flits => (addr, flit) :: flitsAt (addr + 8) flits

theorem storeAll_flitsAt (mem : Mem) (addr : Nat) (flits : List (BitVec 64)) :
    storeAll mem (flitsAt addr flits) = storeFlits mem addr flits := by
  induction flits generalizing mem addr with
  | nil => rfl
  | cons flit flits ih => exact ih _ _

theorem flitsAt_append (addr : Nat) (flits flits' : List (BitVec 64)) :
    flitsAt addr (flits ++ flits') =
      flitsAt addr flits ++ flitsAt (addr + 8 * flits.length) flits' := by
  induction flits generalizing addr with
  | nil => rfl
  | cons flit flits ih =>
      have haddr : addr + 8 + 8 * flits.length = addr + 8 * (flits.length + 1) := by omega
      rw [List.cons_append, flitsAt, flitsAt, ih, haddr, List.length_cons, List.cons_append]

/-- The first of them are flits that follow each other, and so are the others. -/
theorem flitsAt_eq_append {addr : Nat} {flits : List (BitVec 64)} {ps qs : List (Nat × BitVec 64)}
    (h : flitsAt addr flits = ps ++ qs) : ∃ us vs, flits = us ++ vs ∧ ps = flitsAt addr us ∧
      qs = flitsAt (addr + 8 * us.length) vs := by
  induction ps generalizing addr flits with
  | nil => exact ⟨[], flits, rfl, rfl, h.symm⟩
  | cons p ps ih =>
      cases flits with
      | nil => cases h
      | cons flit flits =>
          obtain ⟨hp, htail⟩ := List.cons.inj h
          obtain ⟨us, vs, rfl, rfl, rfl⟩ := ih htail
          have haddr : addr + 8 + 8 * us.length = addr + 8 * (us.length + 1) := by omega
          exact ⟨flit :: us, vs, rfl, by rw [flitsAt, ← hp], by rw [haddr, List.length_cons]⟩

theorem flitsAt_eq_nil {addr : Nat} {flits : List (BitVec 64)} (h : flitsAt addr flits = []) :
    flits = [] := by
  cases flits with
  | nil => rfl
  | cons => cases h

namespace NpuUnit

variable {u : NpuUnit} {inp : In} {a : Accelerator 8 (BitVec 8)} {d b : Nat} {ws : List (BitVec 64)}

/-- A cycle without a weight beat and without a latch pulse: what was owed and the words of the
accepted row are sent or still owed. -/
theorem Owes.computes (h : u.Owes a d ws b) (inp : In) (hmode : u.ctrl.seqMode.getLsbD 0 = false)
    (hlatch : u.ctrl.weightLatchEn = false) :
    ∃ ws', (u.step inp).Owes a (if u.accepts inp then 0 else d + 1) ws'
        ((if inp.stSourceReady = true ∨ ws = [] then b - 1 else b) + 22 * (u.accepts inp).toNat) ∧
      ws ++ ((u.acceptedRowBeat inp).map fun data => product a.matrix (lanes data)).flatMap rowWords =
        u.sentWord inp ++ ws' := by
  have hno : ∀ {P : Prop}, u.ctrl.weightLatchEn = true → P := fun hen => by
    rw [hlatch] at hen
    cases hen
  obtain ⟨ws', howes, hsent⟩ := h.step inp
    ⟨fun _ hmode' => absurd (hmode.symm.trans hmode') (by decide), hno⟩
  have hweight : u.acceptedWeightBeat inp = [] := by
    rw [acceptedWeightBeat, hmode, Bool.and_false]
    rfl
  rw [run_commands, hweight, hlatch] at howes
  rw [answers_commands u inp a hno] at hsent
  exact ⟨ws', howes, hsent⟩

end NpuUnit

namespace Soc

variable {D : Dma} {s : Soc D} {i : In D} {r : Rest} {words : List Nat} {B o n : Nat}

/-- The result of the row at `addr`. -/
def resultAt (π : Equiv.Perm (Fin 8)) (r : Rest) (addr : Nat) : Fin 8 → BitVec 32 :=
  product r.matrix (rowAt π r.mem addr)

/-! ## the write side -/

/-- The words of the results that are taken: those `stored` in memory, those `kept` by the write
side and the `surplus` that it has taken behind the end of its transfer. -/
structure Taken (r : Rest) (n o : Nat) (stored kept surplus : List (BitVec 64)) (s : Soc D) : Prop where
  mem : s.mem = storeFlits r.mem o stored
  buffered : D.write.buffered s.write = flitsAt (o + 8 * stored.length) kept
  clean : surplus = [] → D.write.Clean s.write
  written : Written r.seqTotalRows r.txRowCount o n (stored ++ kept).length surplus.length
    s.unit.stream.txRowCount s.unit.stream.flitIndex s.writing

/-- What a cycle of polls writes, if the words placed behind those kept are `new`. -/
theorem stores_of_polls (hi : i.Polls) {mem : Mem} {stored kept new : List (BitVec 64)}
    (hmem : s.mem = storeFlits mem o stored)
    (hplaced : D.write.buffered s.write ++ placed s.writing (s.flit i) =
      flitsAt (o + 8 * stored.length) (kept ++ new)) :
    ∃ stored' kept', stored' ++ kept' = stored ++ kept ++ new ∧
      (s.step i).mem = storeFlits mem o stored' ∧
        D.write.buffered (s.step i).write = flitsAt (o + 8 * stored'.length) kept' := by
  obtain ⟨-, -, hstep, -⟩ := step_of_polls (s := s) hi
  obtain ⟨-, -, hstores⟩ := engines_step (hi.allowed (s := s))
  obtain ⟨us, vs, hwords, hus, hvs⟩ := flitsAt_eq_append (hplaced.symm.trans hstores)
  refine ⟨stored ++ us, vs, ?_, ?_, ?_⟩
  · rw [List.append_assoc, List.append_assoc, hwords]
  · rw [hstep, hus, hmem, storeAll_flitsAt, storeFlits_append]
  · rw [hvs, List.length_append]
    congr 1
    omega

/-- **The write side** in a cycle of polls. -/
theorem Taken.step (h : Taken r n o stored kept surplus s) (hn : n < 2 ^ 32) (hi : i.Polls)
    (hwf : s.unit.stream.Wf) (hrows : s.unit.ctrl.seqTotalRows = r.seqTotalRows) :
    ∃ stored' kept' surplus', stored' ++ kept' ++ surplus' =
        stored ++ kept ++ surplus ++ s.unit.sentWord (s.unitIn i) ∧
      Taken r n o stored' kept' surplus' (s.step i) := by
  have hsent : s.unit.sentFlit (s.unitIn i) = s.unit.stream.sentFlit (s.unit.streamIn (s.unitIn i)) :=
    rfl
  obtain ⟨-, hwriting, -, -⟩ := step_of_polls (s := s) hi
  have hclean := D.write.clean_step (hi.allowed (s := s)).write
  rw [NpuUnit.sentWord, hsent]
  rcases StreamCtrl.flitIndex_step hwf (s.unit.streamIn (s.unitIn i)) with
    ⟨hnone, hrow, hindex⟩ | ⟨flit, hflit, heop, hnext⟩
  · -- no flit is taken
    have hflit : s.flit i = none := by rw [Soc.flit, hsent, hnone, List.head?_nil]
    have hplaced : D.write.buffered s.write ++ placed s.writing (s.flit i) =
        flitsAt (o + 8 * stored.length) (kept ++ []) := by
      rw [hflit, placed_none, List.append_nil, List.append_nil, h.buffered]
    obtain ⟨stored', kept', hwords, hmem, hbuffered⟩ := stores_of_polls hi h.mem hplaced
    rw [List.append_nil] at hwords
    refine ⟨stored', kept', surplus, by rw [hwords, hnone, List.map_nil, List.append_nil], hmem,
      hbuffered, fun hsurplus => hclean (h.clean hsurplus) fun hsome => ?_, ?_⟩
    · rw [hflit] at hsome
      cases hsome
    · rw [hwords, hwriting, hflit, afterFlit_none]
      show Written _ _ _ _ _ _ (s.unit.stream.step _).txRowCount (s.unit.stream.step _).flitIndex _
      rw [hrow, hindex]
      exact h.written
  · have hsome : s.flit i = some flit := by rw [Soc.flit, hsent, hflit, List.head?_cons]
    have hwritten := h.written
    rw [hflit, List.map_singleton]
    cases hleft : s.writing with
    | nil =>
        -- the transfer is done, the flit is stored nowhere
        have hplaced : D.write.buffered s.write ++ placed s.writing (s.flit i) =
            flitsAt (o + 8 * stored.length) (kept ++ []) := by
          rw [hleft, placed_nil, List.append_nil, List.append_nil, h.buffered]
        obtain ⟨stored', kept', hwords, hmem, hbuffered⟩ := stores_of_polls hi h.mem hplaced
        rw [List.append_nil] at hwords
        refine ⟨stored', kept', surplus ++ [flit.data], by rw [hwords, ← List.append_assoc], hmem,
          hbuffered, fun hsurplus => by simp at hsurplus, ?_⟩
        rw [hleft] at hwritten
        rw [hwords, hwriting, hleft, afterFlit_nil]
        cases hwritten with
        | done hk => exact .done hk fun hsurplus => by simp at hsurplus
    | cons t ts =>
        obtain ⟨rfl, haddr, hsurplus⟩ :
            ts = [] ∧ t.address = o + 8 * (stored ++ kept).length ∧ surplus = [] := by
          rw [hleft] at hwritten
          cases hwritten with
          | more _ hsurplus => exact ⟨rfl, rfl, List.length_eq_zero_iff.mp hsurplus⟩
        have hplaced : D.write.buffered s.write ++ placed s.writing (s.flit i) =
            flitsAt (o + 8 * stored.length) (kept ++ [flit.data]) := by
          rw [flitsAt_append, Nat.add_assoc, ← Nat.mul_add, ← List.length_append, ← haddr, h.buffered,
            hleft, hsome]
          rfl
        obtain ⟨stored', kept', hwords, hmem, hbuffered⟩ := stores_of_polls hi h.mem hplaced
        refine ⟨stored', kept', [], by rw [hsurplus, List.append_nil, List.append_nil, hwords], hmem,
          hbuffered, fun _ => hclean (h.clean hsurplus) fun _ => ?_, ?_⟩
        · show s.writing ≠ []
          rw [hleft]
          exact List.cons_ne_nil _ _
        · have htotal : (s.unit.streamIn (s.unitIn i)).seqTotalRows = r.seqTotalRows := hrows
          rw [htotal] at heop hnext
          rw [hleft, hsurplus] at hwritten
          have hrest := hwritten.next hn heop hnext
          have hlast : afterFlit [t] (some flit) = t.next flit ++ [] := rfl
          rw [hwords, hwriting, hleft, hsome, hlast, List.append_nil, List.length_append,
            List.length_singleton]
          exact hrest

/-! ## streaming -/

/-- The read side hands over `words` as rows, the write side stores the flits of their results
from `o` on.  Within `B` cycles in which both are willing the transfer is done. -/
structure Streams (r : Rest) (words : List Nat) (o B : Nat) (s : Soc D) : Prop
    extends Agrees r s where
  compute : r.mode = false
  latch : s.unit.ctrl.weightLatchEn = false
  fetched : D.read.Fetched s.read r.mem
  unit : ∃ a b done ws stored kept surplus, s.unit.Owes a s.quiet ws b ∧ a.matrix = r.matrix ∧
    a.loaded = r.loaded ∧ words = done ++ s.reading ∧
      (done.map (resultAt D.read.order r)).flatMap NpuUnit.rowWords = stored ++ kept ++ surplus ++ ws ∧
        Taken r words.length o stored kept surplus s ∧
          (s.writing ≠ [] → b + 23 * s.reading.length ≤ B)

theorem Streams.mono (h : Streams r words o B s) {B' : Nat} (hB : B ≤ B') :
    Streams r words o B' s := by
  obtain ⟨a, b, done, ws, stored, kept, surplus, howes, hmatrix, hloaded, hwords, hsent, htaken,
    hbound⟩ := h.unit
  exact ⟨h.toAgrees, h.compute, h.latch, h.fetched, a, b, done, ws, stored, kept, surplus, howes,
    hmatrix, hloaded, hwords, hsent, htaken, fun hne => (hbound hne).trans hB⟩

/-- The rows lie outside of the output. -/
def Apart (words : List Nat) (o : Nat) : Prop :=
  ∀ addr ∈ words, addr + 8 ≤ o ∨ o + 32 * words.length ≤ addr

/-- Storing flits of the output does not change the rows. -/
theorem Apart.agreeOn (hapart : Apart words o) {flits : List (BitVec 64)}
    (hlen : flits.length ≤ 4 * words.length) (mem : Mem) :
    AgreeOn words (storeFlits mem o flits) mem := by
  intro addr haddr l
  have hl := l.isLt
  rcases hapart addr haddr with h | h
  · exact storeFlits_frame _ _ (by omega)
  · exact storeFlits_frame_ge _ _ (by omega)

theorem Taken.agreeOn {stored kept surplus : List (BitVec 64)}
    (h : Taken r words.length o stored kept surplus s) (hapart : Apart words o)
    {done : List Nat} (hwords : words = done ++ s.reading) : AgreeOn s.reading s.mem r.mem := by
  have hle := h.written.length_le
  rw [List.length_append] at hle
  intro addr haddr
  rw [h.mem]
  exact hapart.agreeOn (by omega) r.mem addr (by rw [hwords]; exact List.mem_append_right done haddr)

/-- The words handed over: their results are those of the rows accepted. -/
theorem handed_rows {done : List Nat} (hwords : words = done ++ s.reading)
    (hmode : s.unit.ctrl.seqMode.getLsbD 0 = false) (hfetched : D.read.Fetched s.read r.mem)
    (hagree : AgreeOn s.reading s.mem r.mem) :
    ∃ done', words = done' ++ (if s.handsOver i then s.reading.tail else s.reading) ∧
      done'.map (resultAt D.read.order r) = done.map (resultAt D.read.order r) ++
        (s.unit.acceptedRowBeat (s.unitIn i)).map (fun data => product r.matrix (lanes data)) ∧
      (if s.handsOver i then s.reading.tail else s.reading).length + (s.handsOver i).toNat =
        s.reading.length := by
  rw [acceptedRowBeat_eq, hmode, Bool.not_false, Bool.and_true]
  cases hover : s.handsOver i with
  | true =>
      obtain ⟨addr, rest, hrest, hdata⟩ := reading_of_handsOver hover hfetched hagree
      refine ⟨done ++ [addr], ?_, ?_, ?_⟩
      · simp [hwords, hrest]
      · simp [hdata, lanes_readBeat, resultAt]
      · simp [hrest]
  | false => exact ⟨done, by simpa using hwords, by simp, by simp⟩

/-- With the words of all rows taken the transfer is done. -/
theorem Taken.writing_eq_nil {stored kept surplus : List (BitVec 64)}
    (h : Taken r words.length o stored kept surplus s)
    (hsent : (words.map (resultAt D.read.order r)).flatMap NpuUnit.rowWords = stored ++ kept ++ surplus) :
    s.writing = [] := by
  refine h.written.eq_nil ?_
  have hlen := congrArg List.length hsent
  rw [NpuUnit.length_flatMap_rowWords, List.length_map, List.length_append] at hlen
  exact hlen.le

/-- **One cycle of streaming.** -/
theorem Streams.step (h : Streams r words o B s) (hapart : Apart words o)
    (hn : words.length < 2 ^ 32) (hi : i.Polls) :
    Streams r words o (B - (s.offers i && s.takes i).toNat) (s.step i) := by
  obtain ⟨a, b, done, ws, stored, kept, surplus, howes, hmatrix, hloaded, hwords, hsent, htaken,
    hB⟩ := h.unit
  obtain ⟨hreading, hwriting, -, hlatch⟩ := step_of_polls (s := s) hi
  have hagrees := h.toAgrees.step (hi.allowed (s := s))
  rw [assigns_of_polls hi] at hagrees
  have hmode : s.unit.ctrl.seqMode.getLsbD 0 = false := h.mode.trans h.compute
  have hagree := htaken.agreeOn hapart hwords
  refine ⟨hagrees, h.compute, hlatch, fetched_of_polls hi h.fetched hagree, ?_⟩
  obtain ⟨ws', howes', hwords'⟩ := howes.computes (s.unitIn i) hmode h.latch
  obtain ⟨done', hdone', hresults, hlength⟩ := handed_rows (i := i) hwords hmode h.fetched hagree
  obtain ⟨stored', kept', surplus', hmoved, htaken'⟩ := htaken.step hn hi howes.wf h.seqTotalRows
  rw [← hreading] at hdone' hlength
  refine ⟨a, _, done', ws', stored', kept', surplus', howes', hmatrix, hloaded, hdone', ?_, htaken', ?_⟩
  · rw [hresults, List.flatMap_append, hsent, hmoved]
    generalize stored ++ kept ++ surplus = taken
    rw [List.append_assoc, ← hmatrix, hwords', List.append_assoc]
  · intro hne
    have hmore : s.writing ≠ [] := by
      intro hnil
      refine hne ?_
      rw [hwriting, hnil, afterFlit_nil]
    have hbound := hB hmore
    have haccepts : s.unit.accepts (s.unitIn i) = s.handsOver i := rfl
    rw [haccepts]
    cases hwilling : s.offers i && s.takes i with
    | false =>
        rw [Bool.toNat_false]
        split <;> cases hover : s.handsOver i <;>
          simp only [hover, Bool.toNat_false, Bool.toNat_true] at hlength ⊢ <;> omega
    | true =>
        obtain ⟨hoffer, htakes⟩ := Bool.and_eq_true_iff.mp hwilling
        have hready : (s.unitIn i).stSourceReady = true := by
          rw [takes, Bool.or_eq_true, List.isEmpty_iff] at htakes
          exact htakes.resolve_right hmore
        rw [if_pos (Or.inl hready), Bool.toNat_true]
        by_cases hb : b = 0
        · -- a unit of rank 0 takes the next word, and without one the transfer is done
          subst hb
          obtain ⟨hnil, hover⟩ := howes.of_rank_zero (s.unitIn i)
          have hleft : s.reading ≠ [] := fun hempty => by
            rw [hempty, List.append_nil] at hwords
            rw [hnil, List.append_nil, ← hwords] at hsent
            exact hmore (htaken.writing_eq_nil hsent)
          have hv : (s.unitIn i).stSinkValid = true := by
            rw [offers, Bool.or_eq_true, List.isEmpty_iff] at hoffer
            exact hoffer.resolve_right hleft
          have hover' : s.handsOver i = true := hover.trans hv
          rw [hover', Bool.toNat_true] at hlength ⊢
          omega
        · cases hover : s.handsOver i <;>
            simp only [hover, Bool.toNat_false, Bool.toNat_true] at hlength ⊢ <;> omega

/-- **While both sides are willing** the transfer comes to its end. -/
theorem Streams.run (h : Streams r words o B s) (hapart : Apart words o)
    (hn : words.length < 2 ^ 32) {is : List (In D)} (his : ∀ i ∈ is, i.Polls) :
    Streams r words o (B - count Soc.step (fun s i => s.offers i && s.takes i) s is)
      (Machine.run Soc.step s is) :=
  countdown_run (p := fun _ i => i.Polls) (fun _ _ _ h hi => Streams.step h hapart hn hi) h
    (always_of_forall_mem his)

theorem Streams.writing_eq_nil (h : Streams r words o 0 s) : s.writing = [] := by
  obtain ⟨a, b, done, ws, stored, kept, surplus, howes, -, -, hwords, hsent, htaken, hB⟩ := h.unit
  by_contra hmore
  have hzero := hB hmore
  have hb : b = 0 := by omega
  have hnil : s.reading = [] := List.length_eq_zero_iff.mp (by omega)
  subst hb
  obtain ⟨hws, -⟩ := howes.of_rank_zero ⟨0, false, 0, false, 0, false, false, false, false⟩
  rw [hnil, List.append_nil] at hwords
  rw [hws, List.append_nil, ← hwords] at hsent
  exact hmore (htaken.writing_eq_nil hsent)

/-! ## behind the transfer -/

/-- The write side is through: all that it has taken is in memory. -/
def Through (s : Soc D) : Prop := s.writing = [] ∧ D.write.buffered s.write = []

/-- It stays through. -/
theorem Through.step (h : Through s) (hi : i.Polls) : Through (s.step i) := by
  obtain ⟨hwriting, hbuffered⟩ := h
  obtain ⟨-, hnext, -, -⟩ := step_of_polls (s := s) hi
  obtain ⟨-, -, hstores⟩ := engines_step (hi.allowed (s := s))
  rw [hwriting, afterFlit_nil] at hnext
  rw [hbuffered, hwriting, placed_nil, eq_comm, List.append_nil, List.append_eq_nil_iff] at hstores
  exact ⟨hnext, hstores.2⟩

/-- An idle write side is through. -/
theorem through_of_idle (h : D.write.busy s.write = false) : Through s := by
  by_contra hwork
  have hbusy := D.write.busy_of_work (not_and_or.mp hwork)
  rw [h] at hbusy
  cases hbusy

/-- The words of the batch. -/
def resultWords (π : Equiv.Perm (Fin 8)) (r : Rest) (words : List Nat) : List (BitVec 64) :=
  (words.map (resultAt π r)).flatMap NpuUnit.rowWords

/-- The memory once the rows up to the first EOP are stored. -/
def memAfter (π : Equiv.Perm (Fin 8)) (r : Rest) (words : List Nat) (o : Nat) : Mem :=
  storeFlits r.mem o
    ((resultWords π r words).take (4 * rowsDelivered r.seqTotalRows r.txRowCount words.length))

/-- Nothing is kept once the write side is through. -/
theorem Taken.of_through {stored kept surplus : List (BitVec 64)}
    (h : Taken r n o stored kept surplus s) (hthrough : Through s) :
    kept = [] ∧ stored.length = 4 * rowsDelivered r.seqTotalRows r.txRowCount n ∧
      (surplus = [] → s.unit.stream.txRowCount =
        rowCountAfter r.seqTotalRows r.txRowCount (rowsDelivered r.seqTotalRows r.txRowCount n)) := by
  have hkept : kept = [] := flitsAt_eq_nil (h.buffered.symm.trans hthrough.2)
  have hwritten := h.written
  rw [hthrough.1, hkept, List.append_nil] at hwritten
  cases hwritten with
  | done hk hrow => exact ⟨hkept, hk, fun hsurplus => hrow (by rw [hsurplus, List.length_nil])⟩

/-- What is stored when the write side is through. -/
theorem Streams.mem_eq (h : Streams r words o B s) (hthrough : Through s) :
    s.mem = memAfter D.read.order r words o := by
  obtain ⟨a, b, done, ws, stored, kept, surplus, -, -, -, hwords, hsent, htaken, -⟩ := h.unit
  obtain ⟨hkept, hlen, -⟩ := htaken.of_through hthrough
  rw [htaken.mem, memAfter, ← hlen, resultWords, hwords, List.map_append, List.flatMap_append, hsent,
    hkept, List.append_nil, List.append_assoc, List.append_assoc, List.take_left]

/-- If all rows are delivered the system is at rest again. -/
theorem Streams.rests (h : Streams r words o B s) (hthrough : Through s)
    (hall : rowsDelivered r.seqTotalRows r.txRowCount words.length = words.length) :
    Rests { r with
      mem := storeFlits r.mem o (resultWords D.read.order r words)
      txRowCount := rowCountAfter r.seqTotalRows r.txRowCount words.length
      writing := [] } [] s := by
  have hmem := h.mem_eq hthrough
  obtain ⟨a, b, done, ws, stored, kept, surplus, howes, hmatrix, hloaded, hwords, hsent, htaken,
    -⟩ := h.unit
  obtain ⟨hkept, hstored, hrow⟩ := htaken.of_through hthrough
  rw [hall] at hstored hrow
  -- all words are stored, so all rows are handed over and nothing is owed
  have hlen := congrArg List.length hsent
  have hparts := congrArg List.length hwords
  rw [NpuUnit.length_flatMap_rowWords, List.length_map, List.length_append, List.length_append,
    List.length_append] at hlen
  rw [List.length_append] at hparts
  have hnil : ws = [] := List.length_eq_zero_iff.mp (by omega)
  have hsurplus : surplus = [] := List.length_eq_zero_iff.mp (by omega)
  have hread : s.reading = [] := List.length_eq_zero_iff.mp (by omega)
  have hfull : (resultWords D.read.order r words).take (4 * words.length) =
      resultWords D.read.order r words := by
    refine List.take_of_length_le (le_of_eq ?_)
    rw [resultWords, NpuUnit.length_flatMap_rowWords, List.length_map]
  rw [memAfter, hall, hfull] at hmem
  rw [hnil] at howes
  refine ⟨⟨h.mode, h.seqTotalRows, h.readRegs, h.writeRegs⟩, ⟨hthrough.2, htaken.clean hsurplus⟩,
    ⟨a, howes.le_344, hloaded, ?_⟩, hrow hsurplus, hmem, hthrough.1, hread, D.read.fetched_of_idle hread⟩
  rw [NpuUnit.latched, h.latch, if_neg Bool.false_ne_true, hmatrix]

/-- From rest, with a transfer for the results, the write of GO starts streaming. -/
theorem streams_of_go (h : Rests r [] s) (hmode : r.mode = false) (hlate : s.LatchesLate i)
    (hallows : r.Allows readGo) (hdoes : Does readGo s i) (hwords : r.readRegs.words = words)
    (hwriting : r.writing = [{ address := o, length := 32 * words.length }])
    (hpos : 0 < words.length) :
    Streams (r.access readGo) words o (344 + 23 * words.length) (s.step i) := by
  have hstep : Rests (r.access readGo) r.readRegs.words (s.step i) := h.does hlate hdoes hallows
  rw [hwords] at hstep
  obtain ⟨a, howes, hloaded, hlatched⟩ := hstep.unit
  have hlatch : (s.step i).unit.ctrl.weightLatchEn = false :=
    weightLatchEn_of_descriptor (by decide) hdoes.1
  rw [NpuUnit.latched, hlatch, if_neg Bool.false_ne_true] at hlatched
  have hindex : (s.step i).unit.stream.flitIndex = 0 := by
    obtain ⟨-, hactive⟩ :=
      (StreamCtrl.pendingWords_eq_nil_iff howes.wf).mp howes.pendingWords_eq_nil
    rw [StreamCtrl.flitIndex, hactive, if_neg Bool.false_ne_true]
  have hdelivered : 0 < rowsDelivered r.seqTotalRows r.txRowCount words.length := by
    rw [rowsDelivered]
    split <;> omega
  refine ⟨hstep.toAgrees, hmode, hlatch, hstep.fetched,
    ⟨a, _, [], [], [], [], [], howes, hlatched, hloaded, ?_, rfl,
      ⟨hstep.mem, hstep.buffered, fun _ => hstep.clean, ?_⟩, fun _ => ?_⟩⟩
  · rw [hstep.reading, List.nil_append]
  · have hsame : (r.access readGo).writing = r.writing := by
      rw [readGo, Rest.access_readDescriptor]
    rw [hstep.writing, hstep.txRowCount, hindex, hsame, hwriting]
    exact written_zero hdelivered
  · rw [hstep.reading]

end Soc

end Npu

import ImagineOS.Dfs.Space

/-!
# DFS: reserving and releasing runs

`reserveRun` marks a run and stores the node that receives it in one transaction; `releaseRun`
clears a run and begins a new transaction whenever one is full. Both hold one bitmap sector in hand
and collect the finished ones. `Marking` says what they have collected: laid over the disk, it reads
as the volume with the addresses up to the current one marked, and its targets are consecutive
bitmap sectors.
-/

namespace ImagineOS.Dfs

open BlockProgram Fallible List Option Vol Layout

/-- What is collected so far and the bitmap sector in hand. -/
def collected (tx : Transaction) (current : Option (ℕ × Sector)) : List (ℕ × Sector) :=
  tx.entries ++ current.toList

/-- The addresses from `a` up to `lba` have been marked, on the disk `d` of the volume `v`. -/
structure Marking (L : Layout) (d : ℕ → Sector) (v : Vol) (value : Bool) (a lba : ℕ)
    (tx : Transaction) (current : Option (ℕ × Sector)) : Prop where
  le : a ≤ lba
  /-- Nothing is collected before the first address. -/
  fresh : lba = a → tx.entries = [] ∧ current = none
  /-- The sector in hand describes the last address. -/
  held : a < lba → ∃ s, current = some (L.bitmapSector (lba - 1), s)
  /-- The targets are consecutive. -/
  targets : (collected tx current).map Prod.fst =
    List.range' (L.bitmapSector a) (collected tx current).length
  /-- The collected sectors have the marks. -/
  bits : ∀ x, L.InPartition x →
    getBit (applyWrites (collected tx current) d (L.bitmapSector x)) (L.bitmapBit x) =
      (v.mark a lba value).used x

namespace Marking

variable {L : Layout} {d : ℕ → Sector} {v : Vol} {value : Bool} {a lba : ℕ} {tx : Transaction}
  {current : Option (ℕ × Sector)}

theorem init (hd : ∀ x, L.InPartition x →
      getBit (d (L.bitmapSector x)) (L.bitmapBit x) = v.used x) (value : Bool) (a : ℕ) :
    Marking L d v value a a .new none where
  le := le_rfl
  fresh _ := ⟨rfl, rfl⟩
  held h := absurd h (lt_irrefl a)
  targets := rfl
  bits x hx := by
    rw [mark_empty]
    exact hd x hx

theorem bitmapSector_eq (h : Marking L d v value a lba tx current) (hlt : a < lba) :
    L.bitmapSector (lba - 1) = L.bitmapSector a + tx.entries.length := by
  obtain ⟨s, rfl⟩ := h.held hlt
  have htargets := h.targets
  simp only [collected, toList_some, map_append, map_singleton,
    length_append, length_singleton, range'_concat, Nat.one_mul] at htargets
  have hlast := (append_inj htargets (by simp)).2
  simpa using hlast

theorem mem_targets (h : Marking L d v value a lba tx current) {b : ℕ}
    (hb : b ∈ (collected tx current).map Prod.fst) :
    a < lba ∧ L.bitmapSector a ≤ b ∧ b ≤ L.bitmapSector (lba - 1) := by
  have hlt : a < lba := by
    refine lt_of_le_of_ne h.le fun heq => ?_
    obtain ⟨hnil, rfl⟩ := h.fresh heq.symm
    simp [collected, hnil] at hb
  have heq := h.bitmapSector_eq hlt
  obtain ⟨s, rfl⟩ := h.held hlt
  rw [h.targets, mem_range'_1] at hb
  simp only [collected, toList_some, length_append, length_singleton] at hb
  omega

theorem inMeta (h : Marking L d v value a lba tx current)
    (hrange : ∀ x, a ≤ x → x < lba → L.InPartition x) :
    ∀ e ∈ collected tx current, L.InMeta e.1 := by
  intro e he
  obtain ⟨hlt, h₁, h₂⟩ := h.mem_targets (mem_map_of_mem he)
  have hlast := inMeta_bitmap (hrange (lba - 1) (by omega) (by omega))
  have hfirst := inMeta_bitmap (hrange a le_rfl hlt)
  exact ⟨hfirst.1.trans h₁, h₂.trans_lt hlast.2⟩

theorem nodup (h : Marking L d v value a lba tx current) :
    ((collected tx current).map Prod.fst).Nodup := by
  rw [h.targets]
  exact nodup_range'

theorem addCurrent_eq (h : Marking L d v value a lba tx current)
    (hlen : tx.entries.length < transactionSectors) :
    ∃ hb, addCurrent tx current = .ok ⟨collected tx current, hb⟩ := by
  cases current with
  | none =>
    refine ⟨by simpa [collected] using hlen.le, ?_⟩
    simp [addCurrent, collected]
  | some c =>
    have hnd := h.nodup
    simp only [collected, toList_some, map_append, map_singleton,
      nodup_append, mem_singleton] at hnd
    have hnew : c.1 ∉ tx.entries.map Prod.fst := fun hmem => hnd.2.2 _ hmem _ rfl rfl
    refine ⟨by rw [collected, toList_some, length_append]; exact hlen, ?_⟩
    rw [addCurrent, Transaction.add, if_neg hnew, dif_pos hlen]
    rfl

theorem bits_succ {D D' : ℕ → Sector} (hle : a ≤ lba) (hlba : L.InPartition lba)
    (hbits : ∀ x, L.InPartition x →
      getBit (D (L.bitmapSector x)) (L.bitmapBit x) = (v.mark a lba value).used x)
    (hself : D' (L.bitmapSector lba) =
      setBit (D (L.bitmapSector lba)) (L.bitmapBit lba) value)
    (hne : ∀ b, b ≠ L.bitmapSector lba → D' b = D b) {x : ℕ} (hx : L.InPartition x) :
    getBit (D' (L.bitmapSector x)) (L.bitmapBit x) = (v.mark a (lba + 1) value).used x := by
  by_cases hsector : L.bitmapSector x = L.bitmapSector lba
  · rw [hsector, hself, getBit_setBit _ _ bitmapBit_lt]
    by_cases hbit : L.bitmapBit x = L.bitmapBit lba
    · obtain rfl := eq_of_bitmap hx hlba hsector hbit
      rw [if_pos rfl, mark_used, if_pos ⟨hle, Nat.lt_succ_self _⟩]
    · have hxne : x ≠ lba := fun h => hbit (by rw [h])
      rw [if_neg hbit, ← hsector, hbits x hx, mark_used, mark_used]
      congr 1
      simp only [eq_iff_iff]
      omega
  · have hxne : x ≠ lba := fun h => hsector (by rw [h])
    rw [hne _ hsector, hbits x hx, mark_used, mark_used]
    congr 1
    simp only [eq_iff_iff]
    omega

theorem applyWrites_snoc {ws : List (ℕ × Sector)} {b : ℕ} {s : Sector} (d : ℕ → Sector) :
    applyWrites (ws ++ [(b, s)]) d = Function.update (applyWrites ws d) b s := by
  rw [applyWrites_append, applyWrites, applyWrites]

theorem stay {s : Sector}
    (h : Marking L d v value a lba tx (some (L.bitmapSector lba, s))) (hlba : L.InPartition lba) :
    Marking L d v value a (lba + 1) tx
      (some (L.bitmapSector lba, setBit s (L.bitmapBit lba) value)) where
  le := h.le.trans (Nat.le_succ _)
  fresh heq := absurd h.le (by omega)
  held _ := ⟨_, rfl⟩
  targets := by simpa [collected] using h.targets
  bits x hx := by
    refine bits_succ h.le hlba h.bits ?_ (fun b hb => ?_) hx
    · simp [collected, applyWrites_snoc]
    · simp [collected, applyWrites_snoc, Function.update_of_ne hb]

/-- The next address is described by a new sector, read from the disk. -/
theorem advance (tx' : Transaction) (h : Marking L d v value a lba tx current)
    (htx : tx'.entries = collected tx current) (hlba : L.InPartition lba)
    (hne : ∀ c, current = some c → c.1 ≠ L.bitmapSector lba)
    (hrange : ∀ x, a ≤ x → x < lba → L.InPartition x) :
    Marking L d v value a (lba + 1) tx'
      (some (L.bitmapSector lba, setBit (d (L.bitmapSector lba)) (L.bitmapBit lba) value)) := by
  have hnew : L.bitmapSector lba ∉ (collected tx current).map Prod.fst := by
    intro hmem
    obtain ⟨hlt, -, hle⟩ := h.mem_targets hmem
    obtain ⟨s, hs⟩ := h.held hlt
    have hmono : L.bitmapSector (lba - 1) ≤ L.bitmapSector lba :=
      bitmapSector_mono (by omega)
    exact hne _ hs (le_antisymm hmono hle)
  refine { le := h.le.trans (Nat.le_succ _), fresh := fun heq => absurd h.le (by omega),
           held := fun _ => ⟨_, rfl⟩, targets := ?_, bits := fun x hx => ?_ }
  · have hlen : L.bitmapSector lba = L.bitmapSector a + (collected tx current).length := by
      rcases eq_or_lt_of_le h.le with heq | hlt
      · obtain ⟨hnil, hnone⟩ := h.fresh heq.symm
        simp [collected, hnil, hnone, heq]
      · have heq := h.bitmapSector_eq hlt
        obtain ⟨s, rfl⟩ := h.held hlt
        have hstep := bitmapSector_succ_le (hrange (lba - 1) (by omega) (by omega))
        have hmono : L.bitmapSector (lba - 1) ≤ L.bitmapSector lba :=
          bitmapSector_mono (by omega)
        have hneq := hne _ rfl
        rw [Nat.sub_add_cancel (by omega)] at hstep
        simp only [collected, toList_some, length_append, length_singleton]
        omega
    rw [collected, htx]
    simp only [toList_some, map_append, map_singleton, length_append,
      length_singleton, range'_concat, Nat.one_mul, h.targets, hlen]
  · have hread : applyWrites (collected tx current) d (L.bitmapSector lba) =
        d (L.bitmapSector lba) := applyWrites_of_not_mem d hnew
    rw [collected, htx, toList_some, applyWrites_snoc]
    refine bits_succ h.le hlba h.bits ?_ (fun b hb => Function.update_of_ne hb _ _) hx
    rw [Function.update_self, hread]

/-- The collected sectors, committed together with changes to the node table. -/
theorem represents_commit (extra : List (ℕ × Sector)) (v' : Vol)
    (h : Marking L d v value a lba tx current) (hd : Represents L d v)
    (hrange : ∀ x, a ≤ x → x < lba → L.InPartition x)
    (hbound : (collected tx current ++ extra).length ≤ transactionSectors)
    (hextra : ∀ e ∈ extra, ∃ i < inodeCount, e.1 = L.inodeLba + i)
    (hnode : ∀ i < inodeCount, decodeNode (applyWrites extra d (L.inodeLba + i)) = .ok (v'.nodes i))
    (hused : v'.used = (v.mark a lba value).used) (hdata : v'.data = v.data)
    (hroot : (v'.nodes 0).kind = nodeDirectory ∧ (v'.nodes 0).path = []) :
    Represents L (commitEffect L (collected tx current ++ extra) d) v' := by
  refine .of_commit (hd.toHolds.commit hbound ?_ (fun i hi => ?_) (fun x hx => ?_) hdata) hroot
  · simp only [forall_mem_append]
    refine ⟨h.inMeta hrange, fun e he => ?_⟩
    obtain ⟨i, hi, he⟩ := hextra e he
    rw [he]
    exact inMeta_inode hi
  · have hout : L.inodeLba + i ∉ (collected tx current).map Prod.fst := by
      intro hmem
      obtain ⟨-, hle, -⟩ := h.mem_targets hmem
      obtain ⟨-, hinode, hbitmap, -, -, -, -, -⟩ := L.offsets
      have := L.le_bitmapSector a
      simp only [inodeCount] at hi
      omega
    rw [applyWrites_append, applyWrites_congr extra (applyWrites_of_not_mem d hout)]
    exact hnode i hi
  · have hout : L.bitmapSector x ∉ extra.map Prod.fst := by
      intro hmem
      obtain ⟨e, he, heq⟩ := mem_map.mp hmem
      obtain ⟨i, hi, he⟩ := hextra e he
      exact inode_ne_bitmap hi (he.symm.trans heq)
    rw [applyWrites_append, applyWrites_of_not_mem _ hout, hused]
    exact h.bits x hx

theorem commit (h : Marking L d v value a lba tx current) (hd : Represents L d v)
    (hrange : ∀ x, a ≤ x → x < lba → L.InPartition x)
    (hbound : (collected tx current).length ≤ transactionSectors) :
    Represents L (commitEffect L (collected tx current) d) (v.mark a lba value) := by
  have hrep := h.represents_commit [] (v.mark a lba value) hd hrange
    (by simpa using hbound) (by simp) (fun i hi => hd.node i hi) rfl rfl hd.root
  rwa [append_nil] at hrep

theorem admissible (extra : List (ℕ × Sector)) (h : Marking L d v value a lba tx current)
    (hlt : a < lba) (hrange : ∀ x, a ≤ x → x < lba → L.InPartition x)
    (hbound : (collected tx current ++ extra).length ≤ transactionSectors)
    (hextra : ∀ e ∈ extra, ∃ i < inodeCount, e.1 = L.inodeLba + i)
    (hnodup : (extra.map Prod.fst).Nodup) : Admissible L (collected tx current ++ extra) ∧
      ∀ e ∈ collected tx current ++ extra, L.InMeta e.1 := by
  have hmeta : ∀ e ∈ collected tx current ++ extra, L.InMeta e.1 := by
    simp only [forall_mem_append]
    refine ⟨h.inMeta hrange, fun e he => ?_⟩
    obtain ⟨i, hi, he⟩ := hextra e he
    rw [he]
    exact inMeta_inode hi
  refine ⟨⟨?_, hbound, ?_, fun e he => (hmeta e he).targetable⟩, hmeta⟩
  · obtain ⟨s, rfl⟩ := h.held hlt
    simp [collected]
  · rw [map_append, nodup_append]
    refine ⟨h.nodup, hnodup, ?_⟩
    rintro b hb _ hb' rfl
    obtain ⟨-, hle, -⟩ := h.mem_targets hb
    obtain ⟨e, he, rfl⟩ := mem_map.mp hb'
    obtain ⟨i, hi, he⟩ := hextra e he
    obtain ⟨-, hinode, hbitmap, -, -, -, -, -⟩ := L.offsets
    have := L.le_bitmapSector a
    simp only [inodeCount] at hi
    omega

theorem inode_not_mem (h : Marking L d v value a lba tx current) {i : ℕ} (hi : i < inodeCount) :
    L.inodeLba + i ∉ (collected tx current).map Prod.fst := by
  intro hmem
  obtain ⟨-, hle, -⟩ := h.mem_targets hmem
  obtain ⟨-, hinode, hbitmap, -, -, -, -, -⟩ := L.offsets
  have := L.le_bitmapSector a
  simp only [inodeCount] at hi
  omega

theorem length_lt (h : Marking L d v value a lba tx current)
    (hspan : ∀ x, a ≤ x → x < lba → L.bitmapSector x < L.bitmapSector a + maxBitmapSectors) :
    tx.entries.length < maxBitmapSectors := by
  rcases eq_or_lt_of_le h.le with heq | hlt
  · rw [(h.fresh heq.symm).1]
    decide
  · have heq := h.bitmapSector_eq hlt
    have := hspan (lba - 1) (by omega) (by omega)
    omega

end Marking

section Programs

variable {L : Layout} {d : ℕ → Sector} {v : Vol}

variable {𝒞 : Contract Sector Transaction}

/-- **The shared loop**, on a disk that stands in some relation `Rel` to a volume. It either keeps
within one transaction, which takes a short span, or commits full transactions on the way, each of
which must be allowed and keep the relation. -/
theorem wp_markRun (Rel : (ℕ → Sector) → Vol → Prop)
    {value spill : Bool} {n a lba : ℕ} {tx : Transaction} {current : Option (ℕ × Sector)}
    (hused : ∀ d v, Rel d v → ∀ x, L.InPartition x →
      getBit (d (L.bitmapSector x)) (L.bitmapBit x) = v.used x)
    (hd : Rel d v) (hm : Marking L d v value a lba tx current)
    (hrange : ∀ x, a ≤ x → x < lba + n → L.InPartition x)
    (hlen : tx.entries.length < transactionSectors)
    (hspan : spill = false → ∀ x, a ≤ x → x < lba + n →
      L.bitmapSector x < L.bitmapSector a + maxBitmapSectors)
    (hcall : spill = true → ∀ d' b m tx' current', a ≤ b → b < m → m ≤ lba + n →
      Rel d' (v.mark a b value) → Marking L d' (v.mark a b value) value b m tx' current' →
      ∀ hb, 𝒞.callable ⟨collected tx' current', hb⟩ d' ∧
        Rel (𝒞.effect ⟨collected tx' current', hb⟩ d') (v.mark a m value))
    {Q : Except DfsError (Transaction × Option (ℕ × Sector)) → (ℕ → Sector) → Prop}
    (hQ : ∀ d' a' tx' current', a ≤ a' → a' ≤ lba + n → (spill = false → a' = a ∧ d' = d) →
      (a < lba + n → a' < lba + n) →
      Rel d' (v.mark a a' value) →
      Marking L d' (v.mark a a' value) value a' (lba + n) tx' current' →
      tx'.entries.length < transactionSectors → Q (.ok (tx', current')) d') :
    (markRun L value spill n lba tx current).Wp 𝒞 Q d := by
  induction n generalizing a lba tx current d v with
  | zero =>
    refine hQ d a tx current le_rfl hm.le (fun _ => ⟨rfl, rfl⟩) id ?_ ?_ hlen
    · rwa [mark_empty]
    · rwa [mark_empty]
  | succ n ih =>
    have hle := hm.le
    have hshift : lba + 1 + n = lba + (n + 1) := by omega
    have hlba : L.InPartition lba := hrange lba hle (by omega)
    refine wp_bind (wp_ofExcept.mpr ?_)
    rw [bitmapLocation_eq hlba, thenWp_ok]
    by_cases hstay : ∃ s, current = some (L.bitmapSector lba, s)
    · -- The sector in hand describes this address too.
      obtain ⟨s, rfl⟩ := hstay
      simp only [filter_some, decide_true, if_true]
      refine ih hd (hm.stay hlba) ?_ hlen ?_ ?_ ?_
      all_goals rw [hshift]
      · exact hrange
      · exact hspan
      · exact hcall
      · exact hQ
    · have hne : ∀ c, current = some c → c.1 ≠ L.bitmapSector lba := by
        rintro ⟨b, s⟩ rfl rfl
        exact hstay ⟨s, rfl⟩
      have hfilter : current.filter (fun c => decide (c.1 = L.bitmapSector lba)) = none := by
        cases current with
        | none => rfl
        | some c => simp [hne c rfl]
      simp only [hfilter]
      obtain ⟨hb, hadd⟩ := hm.addCurrent_eq hlen
      refine wp_bind (wp_ofExcept.mpr ?_)
      rw [hadd, thenWp_ok]
      by_cases hfull : spill ∧ (collected tx current).length = transactionSectors
      · -- The transaction is full: it is committed, and marking begins anew at this address.
        obtain ⟨rfl, hfull⟩ := hfull
        have hlt : a < lba := by
          refine lt_of_le_of_ne hle fun heq => ?_
          obtain ⟨hnil, rfl⟩ := hm.fresh heq.symm
          simp [collected, hnil, transactionSectors, journalSectors] at hfull
        obtain ⟨hallowed, hd₁⟩ := hcall rfl d a lba tx current le_rfl hlt (by omega)
          (by rwa [mark_empty]) (by rwa [mark_empty]) hb
        rw [if_pos ⟨rfl, hfull⟩]
        refine wp_bind (wp_call.mpr ⟨hallowed, ?_⟩)
        refine wp_bind (wp_pure.mpr ?_)
        rw [thenWp_ok]
        refine wp_bind (wp_readSector.mpr ?_)
        have hm₁ := (Marking.init (hused _ _ hd₁) value lba).advance .new rfl hlba (by simp)
          fun x h₁ h₂ => absurd h₁ (by omega)
        refine ih hd₁ hm₁ ?_ (by decide) (by simp) ?_ ?_
        · intro x h₁ h₂
          exact hrange x (by omega) (by omega)
        · intro _ d' b m tx' current' h₁ h₂ h₃ hrel hmark
          rw [mark_mark _ hle h₁] at hrel hmark
          rw [mark_mark _ hle (by omega)]
          exact hcall rfl d' b m tx' current' (by omega) h₂ (by omega) hrel hmark
        · intro d' a' tx' current' h₁ h₂ _ h₃ hrel hmark hlen'
          rw [mark_mark _ hle h₁] at hrel hmark
          rw [hshift] at h₂ h₃ hmark
          exact hQ d' a' tx' current' (by omega) h₂ (by simp) (fun _ => h₃ (by omega)) hrel hmark
            hlen'
      · rw [if_neg hfull]
        refine wp_bind (wp_pure.mpr ?_)
        rw [thenWp_ok]
        refine wp_bind (wp_readSector.mpr ?_)
        have hm₁ := hm.advance ⟨collected tx current, hb⟩ rfl hlba hne fun x h₁ h₂ =>
          hrange x h₁ (by omega)
        have hlen₁ : (collected tx current).length < transactionSectors := by
          cases spill with
          | true => exact lt_of_le_of_ne hb fun h => hfull ⟨rfl, h⟩
          | false =>
            have := hm₁.length_lt fun x h₁ h₂ => hspan rfl x h₁ (by omega)
            exact this.trans_le (Nat.sub_le _ _)
        refine ih hd hm₁ ?_ hlen₁ ?_ ?_ ?_
        all_goals rw [hshift]
        · exact hrange
        · exact hspan
        · exact hcall
        · exact hQ

variable {Q : Except DfsError Unit → (ℕ → Sector) → Prop} {start count : ℕ}

/-- **Reserving a run**: what is left to show about the transaction that is committed. -/
theorem wp_reserveRun_of
    (hused : ∀ x, L.InPartition x → getBit (d (L.bitmapSector x)) (L.bitmapBit x) = v.used x)
    {i : ℕ} {node : Node} (hpos : 0 < count)
    (hrange : ∀ x, start ≤ x → x < start + count → L.InPartition x)
    (hspan : ∀ x, start ≤ x → x < start + count →
      L.bitmapSector x < L.bitmapSector start + maxBitmapSectors) (hi : i < inodeCount)
    (hcall : ∀ tx current, Marking L d v true start (start + count) tx current →
      ∀ hb, 𝒞.callable ⟨collected tx current ++ [(L.inodeLba + i, encodeNode node)], hb⟩ d ∧
        Q (.ok ()) (𝒞.effect ⟨collected tx current ++ [(L.inodeLba + i, encodeNode node)], hb⟩ d)) :
    (reserveRun L start count i node).Wp 𝒞 Q d := by
  -- No transaction is committed on the way, so nothing is asked of the disk but its bitmap.
  refine wp_bind (wp_markRun (fun d' v' => d' = d ∧ v'.used = v.used) ?_ ⟨rfl, rfl⟩
    (.init hused true start) hrange (by decide) (fun _ => hspan) (by simp) ?_)
  · rintro _ v' ⟨rfl, hv'⟩ x hx
    exact hv' ▸ hused x hx
  intro d' a' tx current _ _ hsame _ _ hmark _
  obtain ⟨ha, hd'⟩ := hsame rfl
  subst a' d'
  rw [mark_empty] at hmark
  have hlen : tx.entries.length < maxBitmapSectors := hmark.length_lt hspan
  have hts : transactionSectors = maxBitmapSectors + 1 := rfl
  obtain ⟨s, rfl⟩ := hmark.held (by omega)
  obtain ⟨hb, hadd⟩ := hmark.addCurrent_eq (by omega)
  rw [thenWp_ok]
  simp only [getD_some]
  refine wp_bind (wp_ofExcept.mpr ?_)
  rw [show tx.add (L.bitmapSector (start + count - 1)) s = .ok _ from hadd, thenWp_ok]
  set bitmaps := collected tx (some (L.bitmapSector (start + count - 1), s)) with hbitmaps
  have hblen : bitmaps.length = tx.entries.length + 1 := by
    rw [hbitmaps, collected, toList_some, length_append, length_singleton]
  have hbound : (bitmaps ++ [(L.inodeLba + i, encodeNode node)]).length ≤ transactionSectors := by
    rw [length_append, length_singleton]
    omega
  have hnew : L.inodeLba + i ∉ bitmaps.map Prod.fst := hmark.inode_not_mem hi
  have hadd' : Transaction.add ⟨bitmaps, hb⟩ (L.inodeLba + i) (encodeNode node) =
      .ok ⟨bitmaps ++ [(L.inodeLba + i, encodeNode node)], hbound⟩ := by
    rw [Transaction.add, if_neg hnew, dif_pos (show bitmaps.length < _ by omega)]
  refine wp_bind (wp_ofExcept.mpr ?_)
  rw [hadd', thenWp_ok]
  exact wp_call.mpr (hcall tx _ hmark hbound)

/-- Reserving a run for node `i`, on the disk of a volume. -/
theorem wp_reserveRun (hd : Represents L d v) {requested i : ℕ} {run : FreeRun} {node : Node}
    (hrun : run.Fits L v requested) (hi : i < inodeCount) (hne : i ≠ 0) (hvalid : node.Valid)
    (hsound : ((v.mark run.start (run.start + run.length) true).setNode i node.stored).Sound L)
    (hQ : ∀ d', Represents L d'
      ((v.mark run.start (run.start + run.length) true).setNode i node.stored) → Q (.ok ()) d') :
    (reserveRun L run.start run.length i node).Wp (contract L) Q d := by
  have hpos := run.pos
  have hrange : ∀ x, run.start ≤ x → x < run.start + run.length → L.InPartition x :=
    fun x h₁ h₂ => (hrun.inData h₁ h₂).inPartition
  refine wp_reserveRun_of hd.used hpos hrange hrun.span hi fun tx current hmark hb => ?_
  have hextra : ∀ e ∈ [(L.inodeLba + i, encodeNode node)],
      ∃ j < inodeCount, e.1 = L.inodeLba + j := by
    rintro e he
    exact ⟨i, hi, by rw [mem_singleton.mp he]⟩
  obtain ⟨hadm, hmeta⟩ := hmark.admissible _ (by omega) hrange hb hextra (by simp)
  have hrep := hmark.represents_commit _
    ((v.mark run.start (run.start + run.length) true).setNode i node.stored) hd hrange hb
    hextra (fun j hj => by
      rw [applyWrites, applyWrites]
      rcases eq_or_ne j i with rfl | hne
      · rw [Function.update_self, setNode_nodes_self]
        exact decodeNode_encodeNode hvalid
      · rw [Function.update_of_ne (by simp only; omega), setNode_nodes_of_ne _ hne]
        exact hd.node j hj) rfl rfl (by rw [setNode_nodes_of_ne _ hne.symm]; exact hd.root)
  exact ⟨⟨hadm, hmeta, _, hrep, hsound⟩, hQ _ hrep⟩

/-- **Releasing a run**: each transaction that is committed must keep the relation. -/
theorem wp_releaseRun_of (Rel : (ℕ → Sector) → Vol → Prop)
    (hused : ∀ d v, Rel d v → ∀ x, L.InPartition x →
      getBit (d (L.bitmapSector x)) (L.bitmapBit x) = v.used x)
    (hd : Rel d v)
    (hrange : ∀ x, start ≤ x → x < start + count → L.InPartition x)
    (hcall : ∀ d' b m tx current, start ≤ b → m ≤ start + count → (0 < count → b < m) →
      Rel d' (v.mark start b false) → Marking L d' (v.mark start b false) false b m tx current →
      ∀ hb, 𝒞.callable ⟨collected tx current, hb⟩ d' ∧
        Rel (𝒞.effect ⟨collected tx current, hb⟩ d') (v.mark start m false))
    (hQ : ∀ d', Rel d' (v.mark start (start + count) false) → Q (.ok ()) d') :
    (releaseRun L start count).Wp 𝒞 Q d := by
  refine wp_bind (wp_markRun Rel hused hd (.init (hused d v hd) false start) hrange (by decide)
    (by simp) (fun _ d' b m tx current h₁ h₂ h₃ => hcall d' b m tx current h₁ h₃ fun _ => h₂) ?_)
  intro d' a' tx current h₁ h₂ _ h₃ hrel hmark hlen
  obtain ⟨hb, hadd⟩ := hmark.addCurrent_eq hlen
  rw [thenWp_ok]
  refine wp_bind (wp_ofExcept.mpr ?_)
  rw [hadd, thenWp_ok]
  obtain ⟨hallowed, hrel'⟩ := hcall d' a' _ tx current h₁ le_rfl (fun h => h₃ (by omega)) hrel
    hmark hb
  exact wp_call.mpr ⟨hallowed, hQ _ hrel'⟩

theorem wp_releaseRun (hd : Represents L d v) {leaked : ℕ → Prop} (hacc : v.Accounted L leaked)
    (hpos : 0 < count) (hleaked : ∀ lba, start ≤ lba → lba < start + count → leaked lba)
    (hQ : ∀ d', Represents L d' (v.mark start (start + count) false) → Q (.ok ()) d') :
    (releaseRun L start count).Wp (contract L) Q d := by
  have hrange : ∀ x, start ≤ x → x < start + count → L.InPartition x :=
    fun x h₁ h₂ => (hacc.leaked_inData x (hleaked x h₁ h₂)).inPartition
  refine wp_releaseRun_of (Represents L) (fun _ _ hd => hd.used) hd hrange ?_ hQ
  intro d' b m tx current h₁ h₂ h₃ hrep hmark hb
  have hlt := h₃ hpos
  have hrange' : ∀ x, b ≤ x → x < m → L.InPartition x := fun x h₄ h₅ =>
    hrange x (by omega) (by omega)
  obtain ⟨hadm, hmeta⟩ := hmark.admissible [] hlt hrange' (by simpa using hb) (by simp)
    nodup_nil
  rw [append_nil] at hadm hmeta
  have hrep' := hmark.commit hrep hrange' hb
  rw [mark_mark _ h₁ hlt.le] at hrep'
  have hsound : (v.mark start m false).Sound L :=
    (hacc.release fun lba h₄ h₅ => hleaked lba h₄ (by omega)).sound
  exact ⟨⟨hadm, hmeta, _, hrep', hsound⟩, hrep'⟩

/-- **Releasing the extents** that a node has lost. -/
theorem wp_releaseExtents (hd : Represents L d v) {leaked : ℕ → Prop} {extents : List Extent}
    (hacc : v.Accounted L fun lba => leaked lba ∨ ∃ e ∈ extents, e.Covers lba)
    (hpos : ∀ e ∈ extents, e.sectorCount ≠ 0) (hapart : extents.Pairwise Extent.Apart)
    (hfree : ∀ lba, leaked lba → ∀ e ∈ extents, ¬ e.Covers lba)
    (hQ : ∀ d' v', v'.nodes = v.nodes → v'.data = v.data → Represents L d' v' →
      v'.Accounted L leaked → Q (.ok ()) d') :
    (releaseExtents L extents).Wp (contract L) Q d := by
  induction extents generalizing d v with
  | nil =>
    refine hQ d v rfl rfl hd ?_
    simpa using hacc
  | cons e extents ih =>
    rw [pairwise_cons] at hapart
    have hpos' := hpos e (by simp)
    have hcovers : ∀ lba, e.startLba ≤ lba → lba < e.startLba + e.sectorCount →
        leaked lba ∨ ∃ f ∈ e :: extents, f.Covers lba := fun lba h₁ h₂ =>
      Or.inr ⟨e, by simp, h₁, h₂⟩
    refine wp_bind (wp_releaseRun hd hacc (Nat.pos_of_ne_zero hpos') hcovers fun d' hd' => ?_)
    refine ih hd' ?_ (fun f hf => hpos f (mem_cons_of_mem _ hf)) hapart.2
      (fun lba hl f hf => hfree lba hl f (mem_cons_of_mem _ hf)) fun d'' v' h₁ h₂ => ?_
    · have hset : (fun lba => leaked lba ∨ ∃ f ∈ extents, f.Covers lba) = fun lba =>
          (leaked lba ∨ ∃ f ∈ e :: extents, f.Covers lba) ∧
            ¬ (e.startLba ≤ lba ∧ lba < e.startLba + e.sectorCount) := by
        funext lba
        simp only [exists_mem_cons_iff, eq_iff_iff]
        constructor
        · rintro (hl | ⟨f, hf, hcf⟩)
          · exact ⟨Or.inl hl, fun hce => hfree lba hl e (by simp) hce⟩
          · exact ⟨Or.inr (Or.inr ⟨f, hf, hcf⟩), fun hce => hapart.1 f hf lba ⟨hce, hcf⟩⟩
        · rintro ⟨hl | hce | hf, hnot⟩
          · exact Or.inl hl
          · exact absurd hce hnot
          · exact Or.inr hf
      rw [hset]
      exact hacc.release hcovers
    · exact hQ d'' v' h₁ h₂

end Programs

end ImagineOS.Dfs

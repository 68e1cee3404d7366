import ImagineOS.Dfs.Reference

/-!
# DFS: a file of `2 ^ 32` sectors

`read_file` looks for the extent of a logical sector with a 32-bit sum that wraps. A file whose last
extent ends at logical sector `2 ^ 32` can no longer be read there, although `read_file` still
answers elsewhere, so that no map from paths to contents describes it (`files_disagree`).
-/

namespace ImagineOS.Dfs

open BlockProgram Fallible List Vol Nat

/-! ### Packed volumes -/

namespace Vol

variable {L : Layout} {v v' : Vol} {b requested : ℕ}

/-- The sectors in use are those below `b`. -/
structure Packed (L : Layout) (v : Vol) (b : ℕ) : Prop where
  dataLba_le : L.dataLba ≤ b
  used_eq : ∀ lba, L.InPartition lba → v.used lba = decide (lba < b)

theorem Packed.mark (h : v.Packed L b) (n : ℕ) : (v.mark b (b + n) true).Packed L (b + n) where
  dataLba_le := h.dataLba_le.trans (le_add_right b n)
  used_eq lba hlba := by
    simp only [Vol.mark]
    split
    · rw [decide_eq_true (by omega)]
    · rw [h.used_eq lba hlba, decide_eq_decide]
      omega

/-- The scan of a packed volume finds a run at the first free sector. -/
theorem Packed.scan (h : v.Packed L b) (hb : b < L.endLba) {n lba : ℕ}
    {run : Option (FreeRun × ℕ)} (hn : lba + n = L.endLba) (hdata : L.dataLba ≤ lba)
    (hnone : run = none → lba ≤ b) (hsome : ∀ r first, run = some (r, first) → r.start = b) :
    ∃ found, v.scan L requested n lba run = .ok found ∧ found.start = b := by
  induction n generalizing lba run with
  | zero =>
    match run with
    | none =>
      have := hnone rfl
      omega
    | some (r, first) => exact ⟨r, rfl, hsome r first rfl⟩
  | succ n ih =>
    have hused := h.used_eq lba (Layout.InData.inPartition ⟨hdata, by omega⟩)
    rw [Vol.scan, hused]
    cases run with
    | none =>
      have hle := hnone rfl
      simp only [scanStep, decide_eq_true_eq]
      split_ifs with hlt hone
      · exact ih (by omega) (by omega) (fun _ => hlt) (by simp)
      · exact ⟨_, rfl, by simp only; omega⟩
      · refine ih (by omega) (by omega) (by simp) ?_
        rintro r first ⟨⟩
        simp only
        omega
    | some rf =>
      obtain ⟨r, first⟩ := rf
      have hr := hsome r first rfl
      simp only [scanStep]
      split_ifs
      · exact ⟨_, rfl, hr⟩
      · exact ⟨_, rfl, hr⟩
      · exact ⟨_, rfl, hr⟩
      · refine ih (by omega) (by omega) (by simp) ?_
        rintro r' first' ⟨⟩
        exact hr

theorem Packed.freeRun (h : v.Packed L b) (hb : b < L.endLba) (requested : ℕ) :
    ∃ run, v.freeRun L requested = .ok run ∧ run.start = b := by
  obtain ⟨-, -, -, -, -, -, hde, -⟩ := L.offsets
  exact h.scan hb (by omega) le_rfl (fun _ => h.dataLba_le) (by simp)

theorem create_congr (hkind : ∀ j, (v'.nodes j).kind = (v.nodes j).kind)
    (hpath : ∀ j, (v'.nodes j).path = (v.nodes j).path) (p : Path) (kind : UInt8) (mode : UInt16)
    (uid gid : UInt32) : v'.create p kind mode uid gid = v.create p kind mode uid gid := by
  have hfind := find_congr hkind hpath
  have hfree : v'.findFree = v.findFree := by simp only [findFree, hkind]
  unfold create
  rw [hfind, hfind, hfree]
  cases v.find (parentPath p.bytes) <;> simp [hkind]

theorem create_of_nodes (h : v'.nodes = v.nodes) (p : Path) (kind : UInt8) (mode : UInt16)
    (uid gid : UInt32) : v'.create p kind mode uid gid = v.create p kind mode uid gid :=
  create_congr (fun j => by rw [h]) (fun j => by rw [h]) p kind mode uid gid

end Vol

/-! ### Growing files -/

/-- The extents `init`, and after them `count` sectors from `start` on. -/
def tail (init : List Extent) (start count : ℕ) : List Extent :=
  if count = 0 then init else init ++ [.ofNat start (allocated init) count]

@[simp] theorem tail_zero (init : List Extent) (start : ℕ) : tail init start 0 = init := rfl

variable {init : List Extent} {start count : ℕ}

theorem allocated_tail (hcount : count < 2 ^ 32) :
    allocated (tail init start count) = allocated init + count := by
  rw [tail]
  split
  · omega
  · rw [allocated_append, allocated_cons, allocated_nil, add_zero]
    exact congrArg (_ + ·) (mod_eq_of_lt hcount)

theorem chain_tail (h : Chain 0 init)
    (hinit : allocated init < 2 ^ 32) : Chain 0 (tail init start count) := by
  rw [tail]
  split
  · exact h
  · refine chain_append.mpr ⟨h, ?_, trivial⟩
    rw [zero_add]
    exact mod_eq_of_lt hinit

/-- `add_extent` where the tail ends. -/
theorem addExtent_tail {node : Node} {n : ℕ}
    (hext : node.extents = tail init start count) (hlen : init.length < maxExtents)
    (hgap : ∀ e ∈ init.getLast?, (e.startLba + e.sectorCount) % 2 ^ 64 ≠ start) (hn : 0 < n)
    (hstart : start + count < 2 ^ 64) (hlogical : allocated init + count < 2 ^ 32)
    (hcount : count + n < 2 ^ 32) :
    ∃ node', addExtent node (start + count) (allocated init + count) n = .ok node' ∧
      node'.extents = tail init start (count + n) := by
  have hne : count + n ≠ 0 := by omega
  rw [tail, if_neg hne]
  unfold addExtent
  rcases Nat.eq_zero_or_pos count with rfl | hpos
  · rw [tail_zero] at hext
    have hpush : ∃ node', pushExtent node (start + 0) (allocated init + 0) n = .ok node' ∧
        node'.extents = init ++ [.ofNat start (allocated init) (0 + n)] := by
      rw [pushExtent, dif_pos (by rw [hext]; exact hlen)]
      exact ⟨_, rfl, by simp [hext]⟩
    split
    · exact hpush
    · rename_i last hlast
      rw [hext] at hlast
      rw [if_neg fun h => hgap last hlast (by simpa using h.1)]
      exact hpush
  · rw [tail, if_neg hpos.ne'] at hext
    split
    · rename_i h
      rw [hext] at h
      simp at h
    · rename_i last hlast
      rw [hext, List.getLast?_append_of_ne_nil _ (by simp)] at hlast
      obtain rfl : Extent.ofNat start (allocated init) count = last := by simpa using hlast
      set last := Extent.ofNat start (allocated init) count with hdef
      have h₁ : last.startLba = start := Nat.mod_eq_of_lt (by omega)
      have h₂ : last.logicalStart = allocated init := Nat.mod_eq_of_lt (by omega)
      have h₃ : last.sectorCount = count := Nat.mod_eq_of_lt (by omega)
      rw [if_pos (by rw [h₁, h₂, h₃]; exact ⟨Nat.mod_eq_of_lt hstart, Nat.mod_eq_of_lt hlogical⟩),
        dif_pos (by rw [h₃]; exact hcount)]
      refine ⟨_, rfl, ?_⟩
      simp only [hext, dropLast_concat]
      congr 2
      ext
      · rfl
      · rfl
      · exact (congrArg (· + n) h₃).trans (Nat.mod_eq_of_lt hcount).symm

/-- File `i` has the extents `init` and then a run that ends where the free sectors begin. -/
structure Growing (L : Layout) (v : Vol) (i : ℕ) (init : List Extent) (start count : ℕ) : Prop where
  packed : v.Packed L (start + count)
  kind : (v.nodes i).kind = nodeFile
  extents : (v.nodes i).extents = tail init start count
  chain : Chain 0 init
  length_lt : init.length < maxExtents
  gap : ∀ e ∈ init.getLast?, (e.startLba + e.sectorCount) % 2 ^ 64 ≠ start

section Growing

variable {L : Layout} {d : ℕ → Sector} {v : Vol} {i start count n : ℕ} {init : List Extent}

/-- **Allocating** for a growing file. -/
theorem wp_allocate_growing (hd : Represents L d v) (hacc : v.Exact L) (hi : i < inodeCount)
    (h : Growing L v i init start count) (hend : start + count + n ≤ L.endLba)
    (hnum : allocated init + count + n ≤ 2 ^ 32) (hcount : count + n < 2 ^ 32)
    {Q : Except DfsError Node → (ℕ → Sector) → Prop}
    (hQ : ∀ d' v', Represents L d' v' → v'.Exact L →
      Grown L (allocated init + count + n) v v' i → Growing L v' i init start (count + n) →
      Q (.ok (v'.nodes i)) d') :
    (allocate L i (allocated init + count + n) (v.nodes i)
      (allocated (v.nodes i).extents)).Wp (contract L) Q d := by
  induction hm : n using Nat.strong_induction_on generalizing d v n count with
  | _ m ih =>
  subst hm
  obtain ⟨-, -, -, -, -, -, -, hend64⟩ := L.offsets
  have halloc : allocated (v.nodes i).extents = allocated init + count := by
    rw [h.extents, allocated_tail (by omega)]
  rw [allocate]
  rcases Nat.eq_zero_or_pos n with rfl | hn
  · rw [dif_neg (by omega)]
    exact hQ d v hd hacc (.refl L _ v i) h
  rw [dif_pos (by omega)]
  refine wp_bind (wp_findFreeRun hd ?_)
  obtain ⟨run, hfound, hstart⟩ := h.packed.freeRun (by omega)
    (allocated init + count + n - allocated (v.nodes i).extents)
  have hrun := fits_of_freeRun (by omega) hfound
  have hpos := run.pos
  have hle := hrun.le_requested
  rw [halloc, Nat.add_sub_cancel_left] at hle
  obtain ⟨node', hadd, hext⟩ := addExtent_tail h.extents h.length_lt h.gap hpos (by omega)
    (by omega) (by omega)
  have hadd' : addExtent (v.nodes i) run.start (allocated (v.nodes i).extents % 2 ^ 32)
      (run.length % 2 ^ 32) = .ok node' := by
    rw [hstart, halloc, Nat.mod_eq_of_lt (by omega), Nat.mod_eq_of_lt hrun.length_lt]
    exact hadd
  obtain ⟨hvalid, hstored, hacc', hgrown, -⟩ :=
    grown_reserve hacc (hd.decoded hi) hi h.kind (by omega) hrun hadd'
  rw [hfound, thenWp_ok]
  refine wp_bind (wp_ofExcept.mpr ?_)
  rw [hadd', thenWp_ok]
  refine wp_bind (wp_reserveRun hd hrun hi (hd.ne_zero_of_file h.kind) hvalid
    (by rw [hstored]; exact hacc'.sound) fun d' hd' => ?_)
  rw [hstored] at hd'
  rw [thenWp_ok]
  have hself := setNode_nodes_self (v := v.mark run.start (run.start + run.length) true) i node'
  have hgrowing : Growing L ((v.mark run.start (run.start + run.length) true).setNode i node') i
      init start (count + run.length) := {
    packed := by
      rw [hstart, ← Nat.add_assoc]
      exact ⟨(h.packed.mark run.length).dataLba_le, (h.packed.mark run.length).used_eq⟩
    kind := by rw [hgrown.kind]; exact h.kind
    extents := by rw [hself]; exact hext
    chain := h.chain
    length_lt := h.length_lt
    gap := h.gap }
  have hsplit : allocated init + (count + run.length) + (n - run.length) =
      allocated init + count + n := by omega
  have hnext := ih (n - run.length) (by omega) hd' hacc' hgrowing (by omega) (by omega) (by omega)
    (fun d'' v'' h₁ h₂ h₃ h₄ => hQ d'' v'' h₁ h₂ (hgrown.trans (hsplit ▸ h₃))
      (by rwa [show count + n = count + run.length + (n - run.length) by omega])) rfl
  rw [hsplit, hself, hext, allocated_tail (by omega), ← Nat.add_assoc] at hnext
  rw [halloc]
  exact hnext

/-- What a write that ends at byte `stop` and needs `n` more sectors leaves of a growing file. -/
structure Extended (L : Layout) (v v' : Vol) (i : ℕ) (init : List Extent) (start count n stop : ℕ) :
    Prop where
  others : ∀ j, j ≠ i → v'.nodes j = v.nodes j
  path : (v'.nodes i).path = (v.nodes i).path
  kind : (v'.nodes i).kind = (v.nodes i).kind
  growing : Growing L v' i init start (count + n)
  size_le : (v.nodes i).size ≤ (v'.nodes i).size
  stop_le : allocated init + count + n < 2 ^ 32 → stop ≤ (v'.nodes i).size

variable {v' : Vol} {stop : ℕ}

theorem Extended.kinds (h : Extended L v v' i init start count n stop)
    (j : ℕ) : (v'.nodes j).kind = (v.nodes j).kind := by
  rcases eq_or_ne j i with rfl | hj
  · exact h.kind
  · rw [h.others j hj]

theorem Extended.paths (h : Extended L v v' i init start count n stop)
    (j : ℕ) : (v'.nodes j).path = (v.nodes j).path := by
  rcases eq_or_ne j i with rfl | hj
  · exact h.path
  · rw [h.others j hj]

theorem Extended.find (h : Extended L v v' i init start count n stop)
    (p : List UInt8) : v'.find p = v.find p := Vol.find_congr h.kinds h.paths p

/-- **Writing** to a growing file: it grows by the sectors that are needed, and the write succeeds
unless that makes `2 ^ 32` of them. -/
theorem wp_writeNode_growing (hd : Represents L d v) (hacc : v.Exact L) (hi : i < inodeCount)
    (h : Growing L v i init start count) {offset : ℕ} {input : List UInt8}
    (hoffset : offset ≤ (v.nodes i).size) (h64 : offset + input.length < 2 ^ 64)
    (hrequired : sectorsFor (offset + input.length) = allocated init + count + n)
    (hend : start + count + n ≤ L.endLba) (hnum : allocated init + count + n ≤ 2 ^ 32)
    (hcount : count + n < 2 ^ 32) {Q : Except DfsError ℕ → (ℕ → Sector) → Prop}
    (hQ : ∀ r d' v', Represents L d' v' → v'.Exact L →
      Extended L v v' i init start count n (offset + input.length) →
      (allocated init + count + n < 2 ^ 32 → ∃ m, r = .ok m) → Q r d') :
    (writeNode L i offset input).Wp (contract L) Q d := by
  refine wp_bind ((wp_readNode hd hi).mpr ?_)
  rw [thenWp_ok, if_neg (by omega), dif_pos h64, hrequired]
  refine wp_bind (wp_allocate_growing hd hacc hi h hend hnum hcount
    fun d₁ v₁ hd₁ hacc₁ hgrown hgrowing => ?_)
  rw [thenWp_ok]
  have hdec := hd₁.decoded hi
  have hends : ∀ e ∈ (v₁.nodes i).extents, e.startLba + e.sectorCount < 2 ^ 64 :=
    fun e he => hacc₁.end_lt hi hdec he
  have halloc : allocated (v₁.nodes i).extents = allocated init + count + n := by
    rw [hgrowing.extents, allocated_tail hcount, add_assoc]
  refine wp_bind (wp_writeFrom hd₁ hends (hacc₁.inData i hi)
    fun r d₂ v₂ hd₂ hnodes hused _ hbytes => ?_)
  have hacc₂ : v₂.Exact L :=
    hacc₁.congr (fun j _ => by rw [hnodes]) fun lba _ => by rw [hused]
  have hpacked₂ : v₂.Packed L (start + (count + n)) :=
    ⟨hgrowing.packed.dataLba_le,
      fun lba hlba => by rw [hused]; exact hgrowing.packed.used_eq lba hlba⟩
  -- With fewer sectors than that the file is laid out in order, and the data can be written.
  have hwritten : allocated init + count + n < 2 ^ 32 → r = .ok () := fun hlt => by
    have hlaid : (v₁.nodes i).Laid :=
      ⟨by rw [hgrowing.extents]; exact chain_tail h.chain (by omega), by omega⟩
    have hcap : offset + input.length ≤ allocated (v₁.nodes i).extents * sectorSize := by
      rw [halloc, ← hrequired]
      exact le_sectorsFor _
    exact (hbytes hlaid (hacc₁.apart i hi) hcap).1
  cases r with
  | error e =>
    refine hQ _ d₂ v₂ hd₂ hacc₂ ?_ fun hlt => by cases hwritten hlt
    exact {
      others := fun j hj => by rw [hnodes]; exact hgrown.others j hj
      path := by rw [hnodes]; exact hgrown.path
      kind := by rw [hnodes]; exact hgrown.kind
      growing := ⟨hpacked₂, by rw [hnodes]; exact hgrowing.kind,
        by rw [hnodes]; exact hgrowing.extents, h.chain, h.length_lt, h.gap⟩
      size_le := by rw [hnodes, hgrown.size]
      stop_le := fun hlt => by cases hwritten hlt }
  | ok u =>
    rw [thenWp_ok]
    refine wp_bind (wp_flush.mpr ?_)
    rw [thenWp_ok]
    set node' : Node := { v₁.nodes i with
      size := max (v₁.nodes i).size (offset + input.length)
      size_lt := max_lt (v₁.nodes i).size_lt h64 } with hnode'
    have hkind' : node'.kind = nodeFile := hgrowing.kind
    have hvalid : node'.Valid := Or.inr (Or.inl ⟨hkind', fun e he => hdec.sectorCount_ne_zero he⟩)
    have hstored : node'.stored = node' :=
      Node.stored_eq_self (by rw [hkind']; decide) hdec.zero_not_mem
    have hacc₃ : (v₂.setNode i node').Exact L := hacc₂.setNode_of_extents (by rw [hnodes])
    refine wp_bind (wp_storeNode hd₂ hi (hd.ne_zero_of_file h.kind) hvalid
      (by rw [hstored]; exact hacc₃.sound) fun d₃ hd₃ => ?_)
    rw [hstored] at hd₃
    have hself := setNode_nodes_self (v := v₂) i node'
    refine hQ _ d₃ _ hd₃ hacc₃ ?_ fun _ => ⟨_, rfl⟩
    exact {
      others := fun j hj => by
        rw [setNode_nodes_of_ne _ hj, hnodes]
        exact hgrown.others j hj
      path := by rw [hself]; exact hgrown.path
      kind := by rw [hself]; exact hgrown.kind
      growing := ⟨⟨hpacked₂.dataLba_le, hpacked₂.used_eq⟩, by rw [hself]; exact hkind',
        by rw [hself]; exact hgrowing.extents, h.chain, h.length_lt, h.gap⟩
      size_le := by
        rw [hself, ← hgrown.size]
        exact le_max_left _ _
      stop_le := fun _ => by
        rw [hself]
        exact le_max_right _ _ }

/-- `write_file` on a device that never fails, for a growing file that is there. -/
theorem run_writeFile_growing (hd : Represents L d v) (hacc : v.Exact L) (path : Str) {p : Path}
    (hp : canonicalPath path = .ok p) (hne : p.bytes ≠ []) (hfind : v.find p.bytes = some i)
    (h : Growing L v i init start count) (n offset : ℕ) (input : List UInt8)
    (hoffset : offset ≤ (v.nodes i).size) (h64 : offset + input.length < 2 ^ 64)
    (hrequired : sectorsFor (offset + input.length) = allocated init + count + n)
    (hend : start + count + n ≤ L.endLba) (hnum : allocated init + count + n ≤ 2 ^ 32)
    (hcount : count + n < 2 ^ 32) (create : Bool) (mode : UInt16) (uid gid : UInt32) :
    ∃ v', Represents L
        ((Operation.writeFile path offset input create mode uid gid).run L d).2 v' ∧ v'.Exact L ∧
      Extended L v v' i init start count n (offset + input.length) ∧
      (allocated init + count + n < 2 ^ 32 →
        ((Operation.writeFile path offset input create mode uid gid).run L d).1 = .ok ()) := by
  refine wp_run (Q := fun r d' => ∃ v', Represents L d' v' ∧ v'.Exact L ∧
    Extended L v v' i init start count n (offset + input.length) ∧
    (allocated init + count + n < 2 ^ 32 → r = .ok ())) ?_
  refine wp_bind (wp_bind (wp_ofExcept.mpr ?_))
  rw [hp, thenWp_ok, if_neg hne]
  refine wp_bind (wp_findNode hd _ ?_)
  rw [thenWp_ok, hfind]
  simp only [Option.map_some]
  rw [if_neg (by rw [h.kind]; decide)]
  refine wp_bind (wp_findIndex hd _ ?_)
  rw [hfind, thenWp_ok]
  refine wp_writeNode_growing hd hacc (find_eq_some hfind).1 h hoffset h64 hrequired hend hnum
    hcount fun r d' v' hd' hacc' hext hok => ?_
  cases r with
  | error e => exact ⟨v', hd', hacc', hext, fun hlt => by obtain ⟨m, hm⟩ := hok hlt; cases hm⟩
  | ok m => exact ⟨v', hd', hacc', hext, fun _ => rfl⟩

/-- `write_file` on a device that never fails, for a file that it creates on a packed volume. -/
theorem run_writeFile_packed (hd : Represents L d v) (hacc : v.Exact L) (path : Str) {p : Path}
    (hp : canonicalPath path = .ok p) (hne : p.bytes ≠ []) {mode : UInt16} {uid gid : UInt32}
    {node : Node} (hnew : v.create p nodeFile mode uid gid = .ok (i, node))
    (hv : v.Packed L start) (input : List UInt8) (h64 : input.length < 2 ^ 64)
    (hend : start + sectorsFor input.length ≤ L.endLba) (hnum : sectorsFor input.length < 2 ^ 32) :
    ∃ v', Represents L ((Operation.writeFile path 0 input true mode uid gid).run L d).2 v' ∧
      v'.Exact L ∧
      Extended L (v.setNode i node) v' i [] start 0 (sectorsFor input.length) input.length ∧
      ((Operation.writeFile path 0 input true mode uid gid).run L d).1 = .ok () := by
  refine wp_run (Q := fun r d' => ∃ v', Represents L d' v' ∧ v'.Exact L ∧
    Extended L (v.setNode i node) v' i [] start 0 (sectorsFor input.length) input.length ∧
    r = .ok ()) ?_
  obtain ⟨hfind, -, -, hnode⟩ := create_eq_ok hnew
  refine wp_bind (wp_bind (wp_ofExcept.mpr ?_))
  rw [hp, thenWp_ok, if_neg hne]
  refine wp_bind (wp_findNode hd _ ?_)
  rw [thenWp_ok, hfind]
  simp only [Option.map_none]
  rw [if_pos trivial]
  refine wp_bind (wp_createNode hd hacc (Or.inl rfl) (fun e he => ?_)
    fun i' node' d₁ hnew' hi hd₁ hacc₁ => ?_)
  · rw [hnew] at he
    cases he
  obtain ⟨rfl, rfl⟩ := Prod.mk.inj (Except.ok.inj (hnew.symm.trans hnew'))
  have hself := setNode_nodes_self (v := v) i node
  have hgrowing : Growing L (v.setNode i node) i [] start 0 := {
    packed := ⟨hv.dataLba_le, hv.used_eq⟩
    kind := by rw [hself, hnode]; exact Node.kind_stored _
    extents := by rw [hself, hnode, extents_stored (kind_ne_zero (Or.inl rfl))]; rfl
    chain := trivial
    length_lt := by decide
    gap := by simp }
  rw [thenWp_ok]
  refine wp_writeNode_growing hd₁ hacc₁ hi hgrowing (zero_le _) (by rwa [zero_add])
    (by simp) hend (by simpa using hnum.le) (by simpa using hnum)
    fun r d' v' hd' hacc' hext hok => ?_
  rw [zero_add] at hext
  obtain ⟨m, rfl⟩ := hok (by simpa using hnum)
  exact ⟨v', hd', hacc', hext, rfl⟩

end Growing

/-! ### The run -/

/-- A partition of `2 ^ 33` sectors. -/
def wideLayout : Layout where
  startLba := 1
  sectors := 2 ^ 33
  fits := by decide
  rounds := by decide
  bounded := by decide

/-- The path `b`. -/
def otherPath : Path := ⟨[98], rfl, by decide, Or.inr (by decide)⟩

/-- A byte in `a`, a byte in `b`, one more sector of `a`, and then as many more as make `2 ^ 32`. -/
def wideWrites : List Operation :=
  [.writeFile ⟨[97], validUtf8_sample⟩ 0 [1] true 0o644 0 0,
    .writeFile ⟨[98], rfl⟩ 0 [1] true 0o644 0 0,
    .writeFile ⟨[97], validUtf8_sample⟩ 1 (List.replicate 512 1) false 0o644 0 0,
    .writeFile ⟨[97], validUtf8_sample⟩ 513 (List.replicate (2 ^ 41 - 513) 1) false 0o644 0 0]

/-- The file `a`, before anything is written to it. -/
def wideFile : Node := (newNode samplePath nodeFile 0o644 0 0).stored

/-- The file `b`, before anything is written to it. -/
def otherFile : Node := (newNode otherPath nodeFile 0o644 0 0).stored

/-- The volume that `format` makes on a blank disk. -/
def wideVol : Vol := formatVol wideLayout fun _ => zeroSector

theorem create_wide :
    wideVol.create samplePath nodeFile 0o644 0 0 = .ok (1, wideFile) ∧
    (wideVol.setNode 1 wideFile).create otherPath nodeFile 0o644 0 0 = .ok (2, otherFile) ∧
    ((wideVol.setNode 1 wideFile).setNode 2 otherFile).find [97] = some 1 := by
  decide +kernel

theorem formats_wide : ∃ d₀, Formats wideLayout d₀ ∧ Represents wideLayout d₀ wideVol := by
  obtain ⟨d₀, hrun, hrep⟩ := run_format wideLayout fun _ => zeroSector
  exact ⟨d₀, ⟨_, hrun⟩, hrep⟩

theorem packed_formatVol (L : Layout) (d : ℕ → Sector) : (formatVol L d).Packed L L.dataLba :=
  ⟨le_rfl, fun _ _ => rfl⟩

/-- The first two writes create the files, and give each of them a sector. -/
theorem run_create_wide : ∃ d₀ v, Formats wideLayout d₀ ∧
    Represents wideLayout ((wideWrites.take 2).foldl (fun d op => (op.run wideLayout d).2) d₀) v ∧
    v.Exact wideLayout ∧ v.find [97] = some 1 ∧ 1 ≤ (v.nodes 1).size ∧
    Growing wideLayout v 1 (tail [] wideLayout.dataLba 1) (wideLayout.dataLba + 2) 0 := by
  obtain ⟨d₀, hformats, hrep⟩ := formats_wide
  obtain ⟨hnewA, hnewB, hfind⟩ := create_wide
  have hexact : wideVol.Exact wideLayout := formatVol_accounted _
  have hpacked : wideVol.Packed wideLayout wideLayout.dataLba := packed_formatVol _ _
  have hdata : wideLayout.dataLba = 1 + 274 + 2 ^ 21 := by decide
  have hend : wideLayout.endLba = 1 + 2 ^ 33 := by decide
  have hone : sectorsFor ([1] : List UInt8).length = 1 := by decide
  obtain ⟨v₁, hd₁, hacc₁, h₁, -⟩ := run_writeFile_packed hrep hexact
    ⟨[97], rfl⟩ (p := samplePath) rfl (by decide) hnewA hpacked [1]
    (by decide) (by rw [hone]; omega) (by decide)
  rw [hone] at h₁
  obtain ⟨v₂, hd₂, hacc₂, h₂, -⟩ := run_writeFile_packed hd₁ hacc₁
    ⟨[98], rfl⟩ (p := otherPath) rfl (by decide)
    ((Vol.create_congr h₁.kinds h₁.paths _ _ _ _ _).trans hnewB) h₁.growing.packed [1]
    (by decide) (by rw [hone]; omega) (by decide)
  rw [hone] at h₂
  have hnode : v₂.nodes 1 = v₁.nodes 1 :=
    (h₂.others 1 (by decide)).trans (Vol.setNode_nodes_of_ne _ (by decide))
  refine ⟨d₀, v₂, hformats, hd₂, hacc₂, ?_, ?_, ?_⟩
  · rw [h₂.find, ← hfind]
    refine Vol.find_congr (fun j => ?_) (fun j => ?_) _
    · rcases eq_or_ne j 2 with rfl | hj
      · rw [Vol.setNode_nodes_self, Vol.setNode_nodes_self]
      · rw [Vol.setNode_nodes_of_ne _ hj, Vol.setNode_nodes_of_ne _ hj, h₁.kinds]
    · rcases eq_or_ne j 2 with rfl | hj
      · rw [Vol.setNode_nodes_self, Vol.setNode_nodes_self]
      · rw [Vol.setNode_nodes_of_ne _ hj, Vol.setNode_nodes_of_ne _ hj, h₁.paths]
  · rw [hnode]
    exact h₁.stop_le (by decide)
  · exact {
      packed := h₂.growing.packed
      kind := by rw [hnode]; exact h₁.growing.kind
      extents := by rw [hnode]; exact h₁.growing.extents
      chain := chain_tail trivial (by decide)
      length_lt := by decide
      gap := by decide }

/-- The other two fill the file up to logical sector `2 ^ 32`. -/
theorem run_wide : ∃ d₀ v b, Formats wideLayout d₀ ∧
    Represents wideLayout (wideWrites.foldl (fun d op => (op.run wideLayout d).2) d₀) v ∧
    v.find [97] = some 1 ∧ 513 ≤ (v.nodes 1).size ∧
    Growing wideLayout v 1 (tail [] wideLayout.dataLba 1) b (2 ^ 32 - 1) := by
  obtain ⟨d₀, v₂, hformats, hd₂, hacc₂, hfind, hsize, hgrowing⟩ := run_create_wide
  have hdata : wideLayout.dataLba = 1 + 274 + 2 ^ 21 := by decide
  have hend : wideLayout.endLba = 1 + 2 ^ 33 := by decide
  have hinit : allocated (tail [] wideLayout.dataLba 1) = 1 := by decide
  obtain ⟨v₃, hd₃, hacc₃, h₃, -⟩ := run_writeFile_growing hd₂ hacc₂ ⟨[97], rfl⟩
    (p := samplePath) rfl (by decide) hfind hgrowing 1 1
    (List.replicate 512 1) hsize (by rw [length_replicate]; decide)
    (by rw [length_replicate, hinit]; decide) (by rw [hdata, hend]; decide)
    (by rw [hinit]; decide) (by decide) false 0o644 0 0
  have hsize₃ := h₃.stop_le (by rw [hinit]; decide)
  rw [length_replicate] at hsize₃
  obtain ⟨v₄, hd₄, -, h₄, -⟩ := run_writeFile_growing hd₃ hacc₃ ⟨[97], rfl⟩
    (p := samplePath) rfl (by decide) ((h₃.find _).trans hfind) h₃.growing (2 ^ 32 - 2) 513
    (List.replicate (2 ^ 41 - 513) 1) hsize₃
    (by rw [length_replicate]; decide) (by rw [length_replicate, hinit]; decide)
    (by rw [hdata, hend]; decide) (by rw [hinit]; decide) (by decide) false
    0o644 0 0
  exact ⟨d₀, v₄, _, hformats, hd₄, (h₄.find _).trans ((h₃.find _).trans hfind),
    hsize₃.trans h₄.size_le, h₄.growing⟩

/-- The second sector of `a` is not found: the first extent ends before it, and the sum of the other
wraps to zero. -/
theorem readExtent_growing {v : Vol} {b : ℕ}
    (h : Growing wideLayout v 1 (tail [] wideLayout.dataLba 1) b (2 ^ 32 - 1)) :
    readExtent (v.nodes 1) 1 = none := by
  have halloc : allocated (tail [] wideLayout.dataLba 1) = 1 := by decide
  rw [readExtent, Option.map_eq_none_iff, List.find?_eq_none, h.extents]
  intro e he
  have hcases : e = .ofNat wideLayout.dataLba 0 1 ∨ e = .ofNat b 1 (2 ^ 32 - 1) := by
    rw [tail, if_neg (by decide), halloc, mem_append, mem_singleton] at he
    exact he.imp_left mem_singleton.mp
  rw [decide_eq_true_eq]
  rcases hcases with rfl | rfl
  · show ¬ (0 % 2 ^ 32 ≤ 1 ∧ 1 < (0 % 2 ^ 32 + 1 % 2 ^ 32) % 2 ^ 32)
    decide
  · show ¬ (1 % 2 ^ 32 ≤ 1 ∧ 1 < (1 % 2 ^ 32 + (2 ^ 32 - 1) % 2 ^ 32) % 2 ^ 32)
    decide

/-- **No map describes the files** at the end of the run: `read_file` answers at the end of `a`, and
fails in its second sector. -/
theorem files_disagree : ∃ d₀, Formats wideLayout d₀ ∧
    Reached wideLayout Operation.NulFree
      (wideWrites.foldl (fun d op => (op.run wideLayout d).2) d₀) ∧
    ∀ files, ¬ Agrees wideLayout
      (wideWrites.foldl (fun d op => (op.run wideLayout d).2) d₀) files := by
  obtain ⟨d₀, v, b, hformats, hd, hfind, hsize, hgrowing⟩ := run_wide
  refine ⟨d₀, hformats, .perform (.perform (.perform (.perform (.format hformats) _ (by decide)) _
    (by decide)) _ (by decide)) _ (by decide), fun files hagree => ?_⟩
  generalize wideWrites.foldl (fun d op => (op.run wideLayout d).2) d₀ = d at hd hagree
  -- What `read_file` answers once the file is found.
  have hread : ∀ offset length (r : Except DfsError (List UInt8)),
      (if (v.nodes 1).size ≤ offset then pure [] else
        readFrom (v.nodes 1) offset (min length ((v.nodes 1).size - offset)) :
          DfsProgram Transaction (List UInt8)).run.Reads d r →
      ∀ r', (readFile wideLayout ⟨[97], rfl⟩ offset length :
        DfsProgram Transaction (List UInt8)).run.run (commitRun wideLayout) d = (r', d) →
          r' = r := by
    intro offset length r hr r' hr'
    have hreads : (readFile wideLayout ⟨[97], rfl⟩ offset length :
        DfsProgram Transaction (List UInt8)).run.Reads d r := by
      refine reads_bind (a := samplePath) rfl (reads_bind (reads_findNode hd.toHolds _) ?_)
      rw [show v.find samplePath.bytes = some 1 from hfind, Option.map_some]
      simp only
      rw [if_neg (not_not.mpr hgrowing.kind)]
      exact hr
    exact congrArg Prod.fst (hr'.symm.trans (hreads.run _))
  obtain ⟨r₁, hrun₁, hr₁⟩ := hagree ⟨[97], rfl⟩ (v.nodes 1).size 0
  obtain ⟨r₂, hrun₂, hr₂⟩ := hagree ⟨[97], rfl⟩ 512 1
  have h₁ := hread _ _ (.ok []) (by rw [if_pos le_rfl]; exact rfl) r₁ hrun₁
  have h₂ := hread _ _ (.error .corruptMetadata) (by
    rw [if_neg (by omega), readFrom, dif_neg (by omega),
      show logicalSector 512 = 1 from by decide, readExtent_growing hgrowing]
    exact rfl) r₂ hrun₂
  subst h₁ h₂
  cases hf : (canonicalPath ⟨[97], rfl⟩).toOption.bind fun p => files p.bytes with
  | none =>
    rw [hf] at hr₁
    obtain ⟨e, he⟩ := hr₁
    cases he
  | some content =>
    rw [hf] at hr₂
    cases hr₂

end ImagineOS.Dfs

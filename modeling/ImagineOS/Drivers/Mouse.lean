import Mathlib.Algebra.BigOperators.Group.List.Basic
import Mathlib.Data.UInt

/-!
# Drivers: the mouse

The driver takes three bytes for a packet and drops three if the first one cannot begin a packet. So
bytes that are left over shift all the packets behind them, unless they are a multiple of three
(`decodes_iff`).
-/

namespace ImagineOS.Drivers

open List

/-- A packet of the mouse. -/
structure Packet where
  flags : UInt8
  x : UInt8
  y : UInt8
  deriving DecidableEq

/-- `PACKET`, up to `PACKET_INDEX`. -/
inductive Partial
  | empty
  | one (flags : UInt8)
  | two (flags x : UInt8)
  deriving DecidableEq

/-- `PACKET_INDEX` -/
def Partial.index : Partial → ℕ
  | .empty => 0
  | .one _ => 1
  | .two _ _ => 2

/-- A byte is put into `PACKET`, which may be full then. -/
def Partial.push : Partial → UInt8 → Partial × Option Packet
  | .empty, b => (.one b, none)
  | .one flags, b => (.two flags b, none)
  | .two flags x, b => (.empty, some ⟨flags, x, b⟩)

structure MouseReport where
  deltaX : ℤ
  deltaY : ℤ
  left : Bool
  right : Bool
  deriving DecidableEq

def decodeDelta (low : UInt8) (negative : Bool) : ℤ :=
  if negative then (low.toNat : ℤ) - 256 else low.toNat

/-- What a packet moves to the right, unless it says that there was an overflow. -/
def Packet.deltaX (p : Packet) : ℤ :=
  if p.flags &&& 0x40 ≠ 0 then 0 else decodeDelta p.x (p.flags &&& 0x10 ≠ 0)

/-- What a packet moves down. -/
def Packet.deltaY (p : Packet) : ℤ :=
  if p.flags &&& 0x80 ≠ 0 then 0 else -decodeDelta p.y (p.flags &&& 0x20 ≠ 0)

/-- What `poll` has accumulated: no report yet, or one. -/
def accumulate (report : Option MouseReport) (p : Packet) : Option MouseReport :=
  some
    { deltaX := (report.elim 0 MouseReport.deltaX) + p.deltaX
      deltaY := (report.elim 0 MouseReport.deltaY) + p.deltaY
      left := p.flags &&& 0x01 ≠ 0
      right := p.flags &&& 0x02 ≠ 0 }

/-- The loop of `poll`, over the bytes in the controller, each with `STATUS_AUX_DATA`. -/
def pollLoop : ℕ → Partial → List (Bool × UInt8) → Option MouseReport →
    Option MouseReport × Partial × List (Bool × UInt8)
  | budget + 1, packet, (true, byte) :: items, report =>
    match packet.push byte with
    | (packet, none) => pollLoop budget packet items report
    | (packet, some p) =>
      if p.flags &&& 0x08 = 0 then pollLoop budget packet items report
      else pollLoop budget packet items (accumulate report p)
  | _, packet, items, report => (report, packet, items)

/-- The driver, and the bytes in the controller. -/
structure Mouse where
  packet : Partial
  items : List (Bool × UInt8)

def Mouse.poll (s : Mouse) : Option MouseReport × Mouse :=
  let (report, packet, items) := pollLoop 256 s.packet s.items none
  (report, ⟨packet, items⟩)

/-! ### Runs -/

/-- A byte arrives at the controller, from the mouse or the keyboard; `poll` is called; or the
driver of the keyboard takes its byte. -/
inductive MouseEvent
  | arrive (aux : Bool) (byte : UInt8)
  | poll
  | takeKey

/-- One event, and the report if there is one. -/
def Mouse.step (s : Mouse) : MouseEvent → Option MouseReport × Mouse
  | .arrive aux byte => (none, { s with items := s.items ++ [(aux, byte)] })
  | .poll => s.poll
  | .takeKey => match s.items with
    | (false, _) :: items => (none, { s with items := items })
    | _ => (none, s)

/-- The reports of some events. -/
def Mouse.run (s : Mouse) : List MouseEvent → List MouseReport × Mouse
  | [] => ([], s)
  | event :: events =>
    let (reports, s') := (s.step event).2.run events
    ((s.step event).1.toList ++ reports, s')

/-- The bytes of the mouse. -/
def auxBytes (items : List (Bool × UInt8)) : List UInt8 :=
  items.filterMap fun item => if item.1 then some item.2 else none

/-- The bytes of the mouse that arrive. -/
def mouseBytes (events : List MouseEvent) : List UInt8 :=
  events.filterMap fun
    | .arrive true byte => some byte
    | _ => none

/-- The bytes of some packets. -/
def encode (packets : List Packet) : List UInt8 := packets.flatMap fun p => [p.flags, p.x, p.y]

/-- A packet as the mouse sends it, with the bit clear in its movement. -/
structure Packet.Valid (p : Packet) : Prop where
  flags : p.flags &&& 0x08 ≠ 0
  x : p.x &&& 0x08 = 0
  y : p.y &&& 0x08 = 0

/-- A report of some packets: their movement together, and the buttons of the last one. -/
structure Summarises (r : MouseReport) (packets : List Packet) : Prop where
  deltaX : r.deltaX = (packets.map Packet.deltaX).sum
  deltaY : r.deltaY = (packets.map Packet.deltaY).sum
  buttons : ∃ last, packets.getLast? = some last ∧
    r.left = decide (last.flags &&& 0x01 ≠ 0) ∧ r.right = decide (last.flags &&& 0x02 ≠ 0)

/-- The reports are those of the packets, some for each of them. -/
def Describes (reports : List MouseReport) (packets : List Packet) : Prop :=
  ∃ groups : List (List Packet), groups.flatten = packets ∧ List.Forall₂ Summarises reports groups

/-- **The decoder finds its way back**: behind some packets, all are decoded, whatever happens in
between, once all bytes were read. -/
def Mouse.Resynchronises (s : Mouse) : Prop :=
  ∃ n, ∀ first : List Packet, first.length = n → (∀ p ∈ first, p.Valid) →
    ∃ junk, ∀ packets : List Packet, (∀ p ∈ packets, p.Valid) → ∀ events,
      mouseBytes events = encode (first ++ packets) → auxBytes (s.run events).2.items = [] →
        Describes (s.run events).1 (junk ++ packets)

/-- Without bytes left over, no packet is lost. -/
def Mouse.Lossless (s : Mouse) : Prop :=
  s.packet = .empty → auxBytes s.items = [] →
    ∀ packets : List Packet, (∀ p ∈ packets, p.Valid) → ∀ events,
      mouseBytes events = encode packets → auxBytes (s.run events).2.items = [] →
        Describes (s.run events).1 packets

/-! ### Decoding -/

/-- The packets that are taken from some bytes, and the bytes of the next one. -/
def decode : Partial → List UInt8 → List Packet × Partial
  | packet, [] => ([], packet)
  | packet, byte :: bytes =>
    let (rest, packet') := decode (packet.push byte).1 bytes
    ((packet.push byte).2.toList.filter (·.flags &&& 0x08 ≠ 0) ++ rest, packet')

variable {packet : Partial} {packets : List Packet} {p : Packet} {bytes : List UInt8} {s : Mouse}

theorem decode_append (packet : Partial) (bytes bytes' : List UInt8) :
    decode packet (bytes ++ bytes') =
      ((decode packet bytes).1 ++ (decode (decode packet bytes).2 bytes').1,
        (decode (decode packet bytes).2 bytes').2) := by
  induction bytes generalizing packet with
  | nil => rfl
  | cons byte bytes ih => simp [decode, ih]

theorem index_decode (packet : Partial) (bytes : List UInt8) :
    (decode packet bytes).2.index = (packet.index + bytes.length) % 3 := by
  induction bytes generalizing packet with
  | nil => cases packet <;> rfl
  | cons byte bytes ih =>
    have hpush : (packet.push byte).1.index % 3 = (packet.index + 1) % 3 := by
      cases packet <;> simp [Partial.push, Partial.index]
    have hrest := ih (packet.push byte).1
    rw [length_cons]
    show (decode (packet.push byte).1 bytes).2.index = _
    omega

theorem Partial.eq_empty_of_index (h : packet.index = 0) : packet = .empty := by
  cases packet with
  | empty => rfl
  | one flags => cases h
  | two flags x => cases h

theorem decode_encode (h : ∀ p ∈ packets, p.Valid) :
    decode .empty (encode packets) = (packets, .empty) := by
  induction packets with
  | nil => rfl
  | cons p packets ih =>
    have hrest := ih fun q hq => h q (mem_cons_of_mem p hq)
    have hflags := (h p mem_cons_self).flags
    rw [encode] at hrest
    simp [encode, decode, Partial.push, hrest, hflags]

/-! ### What is reported -/

/-- **One call**: a report is that of its packets, and there is one if there are any. -/
theorem foldl_accumulate (packets : List Packet) :
    (packets = [] ∧ packets.foldl accumulate none = none) ∨
      ∃ r, packets.foldl accumulate none = some r ∧ Summarises r packets := by
  induction packets using List.reverseRecOn with
  | nil => exact .inl ⟨rfl, rfl⟩
  | append_singleton packets p ih =>
    refine .inr ?_
    rw [foldl_append]
    rcases ih with ⟨rfl, hnone⟩ | ⟨r, hr, hsum⟩
    · exact ⟨_, rfl, by simp, by simp, p, by simp, rfl, rfl⟩
    · rw [hr]
      refine ⟨_, rfl, ?_, ?_, p, by simp, rfl, rfl⟩
      · simp [hsum.deltaX]
      · simp [hsum.deltaY]

/-- The loop takes some bytes of the mouse, and accumulates their packets. -/
theorem pollLoop_spec (budget : ℕ) (packet : Partial) (items : List (Bool × UInt8))
    (report : Option MouseReport) :
    ∃ taken rest, auxBytes items = taken ++ auxBytes rest ∧ rest.length ≤ items.length ∧
      pollLoop budget packet items report =
        ((decode packet taken).1.foldl accumulate report, (decode packet taken).2, rest) := by
  induction budget generalizing packet items report with
  | zero => exact ⟨[], items, rfl, le_rfl, rfl⟩
  | succ budget ih =>
    rcases items with _ | ⟨⟨_ | _, byte⟩, items⟩
    · exact ⟨[], [], rfl, le_rfl, rfl⟩
    · exact ⟨[], (false, byte) :: items, rfl, le_rfl, rfl⟩
    · rw [pollLoop]
      rcases hpush : packet.push byte with ⟨packet', _ | p⟩
      · obtain ⟨taken, rest, haux, hle, hloop⟩ := ih packet' items report
        refine ⟨byte :: taken, rest, congrArg (byte :: ·) haux, hle.trans (Nat.le_succ _), ?_⟩
        dsimp only
        rw [hloop]
        simp [decode, hpush]
      · by_cases hflags : p.flags &&& 0x08 = 0
        · obtain ⟨taken, rest, haux, hle, hloop⟩ := ih packet' items report
          refine ⟨byte :: taken, rest, congrArg (byte :: ·) haux, hle.trans (Nat.le_succ _), ?_⟩
          dsimp only
          rw [if_pos hflags, hloop]
          simp [decode, hpush, hflags]
        · obtain ⟨taken, rest, haux, hle, hloop⟩ := ih packet' items (accumulate report p)
          refine ⟨byte :: taken, rest, congrArg (byte :: ·) haux, hle.trans (Nat.le_succ _), ?_⟩
          dsimp only
          rw [if_neg hflags, hloop]
          simp [decode, hpush, hflags]

theorem Describes.append {reports reports' : List MouseReport} {packets packets' : List Packet}
    (h : Describes reports packets) (h' : Describes reports' packets') :
    Describes (reports ++ reports') (packets ++ packets') := by
  obtain ⟨groups, rfl, hgroups⟩ := h
  obtain ⟨groups', rfl, hgroups'⟩ := h'
  exact ⟨groups ++ groups', flatten_append, rel_append hgroups hgroups'⟩

/-- **One event** takes some bytes, and reports their packets. -/
theorem step_spec (s : Mouse) (event : MouseEvent) :
    ∃ taken, auxBytes s.items ++ mouseBytes [event] = taken ++ auxBytes (s.step event).2.items ∧
      (s.step event).2.packet = (decode s.packet taken).2 ∧
      Describes (s.step event).1.toList (decode s.packet taken).1 := by
  cases event with
  | arrive aux byte =>
    refine ⟨[], ?_, rfl, [], rfl, .nil⟩
    cases aux <;> simp [Mouse.step, mouseBytes, auxBytes]
  | poll =>
    obtain ⟨taken, rest, haux, -, hloop⟩ := pollLoop_spec 256 s.packet s.items none
    refine ⟨taken, ?_, ?_, ?_⟩
    · simpa [Mouse.step, Mouse.poll, hloop, mouseBytes] using haux
    · simp [Mouse.step, Mouse.poll, hloop]
    · simp only [Mouse.step, Mouse.poll, hloop]
      rcases foldl_accumulate (decode s.packet taken).1 with ⟨hnil, hnone⟩ | ⟨r, hr, hsum⟩
      · rw [hnone, hnil]
        exact ⟨[], rfl, .nil⟩
      · rw [hr]
        exact ⟨[_], flatten_singleton, .cons hsum .nil⟩
  | takeKey =>
    rcases s with ⟨packet, _ | ⟨⟨_ | _, byte⟩, items⟩⟩ <;>
      exact ⟨[], by simp [Mouse.step, mouseBytes, auxBytes], rfl, [], rfl, .nil⟩

/-- **A run**: the reports are those of the packets of the bytes that were read. -/
theorem run_spec (events : List MouseEvent) (s : Mouse) :
    ∃ taken, auxBytes s.items ++ mouseBytes events = taken ++ auxBytes (s.run events).2.items ∧
      Describes (s.run events).1 (decode s.packet taken).1 := by
  induction events generalizing s with
  | nil => exact ⟨[], by simp [Mouse.run, mouseBytes], [], rfl, .nil⟩
  | cons event events ih =>
    obtain ⟨taken, haux, hpacket, hstep⟩ := step_spec s event
    obtain ⟨taken', haux', hrun⟩ := ih (s.step event).2
    refine ⟨taken ++ taken', ?_, ?_⟩
    · have hbytes : mouseBytes (event :: events) = mouseBytes [event] ++ mouseBytes events :=
        filterMap_append (l := [event]) ..
      rw [hbytes, ← append_assoc, haux, append_assoc, haux', append_assoc]
      rfl
    · rw [decode_append, ← hpacket]
      exact hstep.append hrun

theorem describes_run {events : List MouseEvent} (h : auxBytes (s.run events).2.items = []) :
    Describes (s.run events).1
      (decode s.packet (auxBytes s.items ++ mouseBytes events)).1 := by
  obtain ⟨taken, haux, hrun⟩ := run_spec events s
  rw [h, append_nil] at haux
  rwa [haux]

theorem Describes.sum_deltaX {reports : List MouseReport} (h : Describes reports packets) :
    (reports.map MouseReport.deltaX).sum = (packets.map Packet.deltaX).sum := by
  obtain ⟨groups, rfl, hgroups⟩ := h
  induction hgroups with
  | nil => rfl
  | cons hgroup _ ih =>
    rw [map_cons, sum_cons, ih, hgroup.deltaX, flatten_cons, map_append, sum_append]

theorem length_poll (packet : Partial) (byte : UInt8) (items : List (Bool × UInt8)) :
    (Mouse.poll ⟨packet, (true, byte) :: items⟩).2.items.length < items.length + 1 := by
  have hle : ∀ packet report, (pollLoop 255 packet items report).2.2.length < items.length + 1 := by
    intro packet report
    obtain ⟨taken, rest, -, hle, hloop⟩ := pollLoop_spec 255 packet items report
    rw [hloop]
    exact Nat.lt_succ_of_le hle
  show (pollLoop (255 + 1) packet ((true, byte) :: items) none).2.2.length < _
  rw [pollLoop]
  split
  · exact hle _ _
  · split <;> exact hle _ _

theorem exists_run (s : Mouse) (bytes : List UInt8) :
    ∃ events, mouseBytes events = bytes ∧ auxBytes (s.run events).2.items = [] := by
  induction bytes generalizing s with
  | nil =>
    obtain ⟨packet, items⟩ := s
    induction hn : items.length using Nat.strong_induction_on generalizing packet items with
    | h n ih =>
      subst hn
      rcases items with _ | ⟨⟨_ | _, byte⟩, items⟩
      · exact ⟨[], rfl, rfl⟩
      · obtain ⟨events, hbytes, hend⟩ := ih items.length (Nat.lt_succ_self _) packet items rfl
        exact ⟨.takeKey :: events, hbytes, hend⟩
      · -- The call takes the first byte, at least.
        have hlt : (Mouse.poll ⟨packet, (true, byte) :: items⟩).2.items.length < items.length + 1 :=
          length_poll packet byte items
        obtain ⟨events, hbytes, hend⟩ := ih _ hlt _ _ rfl
        exact ⟨.poll :: events, hbytes, hend⟩
  | cons byte bytes ih =>
    obtain ⟨events, hbytes, hend⟩ := ih (s.step (.arrive true byte)).2
    exact ⟨.arrive true byte :: events, congrArg (byte :: ·) hbytes, hend⟩

/-! ### Where the decoder stands -/

/-- A packet that moves to the right. -/
def rightward : Packet := ⟨0x08, 1, 0⟩

theorem rightward_valid {n : ℕ} : ∀ p ∈ List.replicate n rightward, p.Valid := fun p hp =>
  eq_of_mem_replicate hp ▸ ⟨by decide, by decide, by decide⟩

theorem decode_rightward (h : packet.index ≠ 0) :
    (decode (decode packet (encode [rightward])).2 (encode [rightward])).1 = [] := by
  cases packet with
  | empty => exact absurd rfl h
  | one flags => rfl
  | two flags x => rfl

theorem not_resynchronises (h : ¬ 3 ∣ s.packet.index + (auxBytes s.items).length) :
    ¬ s.Resynchronises := by
  rintro ⟨n, hn⟩
  obtain ⟨junk, hjunk⟩ := hn (List.replicate n rightward) length_replicate rightward_valid
  have hsum : ∀ k, ((decode s.packet (auxBytes s.items ++ encode
      (List.replicate n rightward ++ List.replicate k rightward))).1.map Packet.deltaX).sum =
        (junk.map Packet.deltaX).sum + k := by
    intro k
    obtain ⟨events, hbytes, hend⟩ := exists_run s
      (encode (List.replicate n rightward ++ List.replicate k rightward))
    have hdescribes := hjunk (List.replicate k rightward) rightward_valid events hbytes hend
    have hright : rightward.deltaX = 1 := rfl
    rw [← hbytes, ← (describes_run hend).sum_deltaX, hdescribes.sum_deltaX]
    simp [hright]
  have hone := hsum 1
  have htwo := hsum 2
  have hindex := index_decode s.packet (auxBytes s.items ++ encode (List.replicate n rightward))
  have hlength : (encode (List.replicate n rightward)).length = 3 * n := by
    simp [encode, Nat.mul_comm]
  rw [length_append, hlength] at hindex
  have hdrop := @decode_rightward
    (decode s.packet (auxBytes s.items ++ encode (List.replicate n rightward))).2 (by omega)
  -- So a second packet more adds nothing.
  have hsame : ∀ bytes, (decode (decode s.packet bytes).2
      (encode [rightward] ++ encode [rightward])).1 =
        (decode (decode s.packet bytes).2 (encode [rightward])).1 ++
          (decode (decode (decode s.packet bytes).2 (encode [rightward])).2
            (encode [rightward])).1 := fun bytes => by rw [decode_append]
  have hencode : ∀ packets, encode (List.replicate n rightward ++ packets) =
      encode (List.replicate n rightward) ++ encode packets := fun packets => flatMap_append
  rw [hencode, ← append_assoc, decode_append] at hone htwo
  have hpair : encode (List.replicate 2 rightward) = encode [rightward] ++ encode [rightward] := rfl
  rw [hpair, hsame, hdrop, append_nil] at htwo
  have htotal := hone.symm.trans htwo
  simp at htotal

/-- **Headline.** The decoder finds its way back if and only if the bytes that are left over, in
the driver and in the controller, are a multiple of three; with none left over, no packet is lost.
-/
theorem decodes_iff (s : Mouse) : s.Resynchronises ∧ s.Lossless ↔
    3 ∣ s.packet.index + (auxBytes s.items).length := by
  refine ⟨fun h => by_contra fun hnot => not_resynchronises hnot h.1, fun h => ⟨?_, ?_⟩⟩
  · obtain ⟨junk, hjunk⟩ : ∃ junk, decode s.packet (auxBytes s.items) = (junk, .empty) := by
      have hindex := index_decode s.packet (auxBytes s.items)
      exact ⟨_, Prod.ext rfl (Partial.eq_empty_of_index (by omega))⟩
    refine ⟨0, fun first hfirst _ => ⟨junk, fun packets hpackets events hbytes hend => ?_⟩⟩
    obtain rfl := eq_nil_of_length_eq_zero hfirst
    have hdescribes := describes_run hend
    rw [hbytes, decode_append, hjunk] at hdescribes
    rwa [nil_append, decode_encode hpackets] at hdescribes
  · intro hempty haux packets hpackets events hbytes hend
    have hdescribes := describes_run hend
    rwa [hbytes, hempty, haux, nil_append, decode_encode hpackets] at hdescribes

/-- A stray byte is enough. -/
theorem stray_byte :
    ¬ ∀ s : Mouse, s.Resynchronises ∧ s.Lossless := fun h =>
  not_resynchronises (s := ⟨.empty, [(true, 0)]⟩) (by decide) (h _).1

end ImagineOS.Drivers

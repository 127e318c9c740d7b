import OsLab.Lib.Ring
import OsLab.Lib.Run

/-! # The input queue of a terminal (`dev_tty.c`)

`tty_cook` puts what is typed into a ring of `TTY_COOK_BUF_SZ` bytes, and `tty_read`
takes a line out. The ring knows lines only by the `'\0'` behind each of them, and
`tty_pop_back` decides by the byte before `rear` whether there is something to
delete: that byte may be the end of a line that was read long ago.

Pointers into the ring are indices. `lock` makes `tty_cook` and `tty_read` atomic;
`cooked` counts the signals that no read has used up.
-/

namespace OsLab

open Trace

def TTY_COOK_BUF_SZ : ℕ := 1024

/-- `struct tty_queue`. -/
structure TtyQueue where
  buf : ℕ → UInt8
  front : ℕ
  rear : ℕ

/-- `tty_enqueue`; `none` is the panic. -/
def ttyEnqueue (ch : UInt8) (q : TtyQueue) : Option TtyQueue :=
  let q := { q with buf := Function.update q.buf q.rear ch, rear := q.rear + 1 }
  let q := if q.rear = TTY_COOK_BUF_SZ then { q with rear := 0 } else q
  if q.rear = q.front then none else some { q with buf := Function.update q.buf q.rear 0 }

/-- `tty_pop_back`: its return value and the queue afterwards. -/
def ttyPopBack (q : TtyQueue) : ℕ × TtyQueue :=
  if q.front ≠ TTY_COOK_BUF_SZ then
    let pos := if q.rear = 0 then TTY_COOK_BUF_SZ else q.rear
    if q.buf (pos - 1) ≠ 0 then
      (0, { q with rear := pos - 1, buf := Function.update q.buf (pos - 1) 0 })
    else (1, q)
  else (1, q)

/-- The queue of a tty with its semaphore `cooked`. -/
structure TtyInput where
  queue : TtyQueue
  cooked : ℕ

/-- `tty_cook`: its return value and the state afterwards. -/
def ttyCook (ch : UInt8) (t : TtyInput) : Option (ℕ × TtyInput) :=
  if ch = '\n'.toUInt8 then
    (ttyEnqueue ch t.queue).bind fun q =>
      (ttyEnqueue 0 q).map fun q => (0, ⟨q, t.cooked + 1⟩)
  else if ch = '\x08'.toUInt8 then
    some ((ttyPopBack t.queue).1, { t with queue := (ttyPopBack t.queue).2 })
  else (ttyEnqueue ch t.queue).map fun q => (0, { t with queue := q })

/-- The loop of `tty_read`, with the bytes copied so far; `none` when `fuel` rounds are not
enough. -/
def readLine (count : ℕ) : ℕ → List UInt8 → TtyQueue → Option (List UInt8 × TtyQueue)
  | 0, _, _ => none
  | fuel + 1, got, q =>
      let ch := q.buf q.front
      let got := if got.length < count ∧ ch ≠ 0 then got ++ [ch] else got
      let q := { q with front := q.front + 1 }
      let q := if q.front = TTY_COOK_BUF_SZ then { q with front := 0 } else q
      if ch = 0 then some (got, q) else readLine count fuel got q

/-- `tty_read`: the bytes it copies, whose number it returns; `none` while no line is cooked. -/
def ttyRead (fuel count : ℕ) (t : TtyInput) : Option (List UInt8 × TtyInput) :=
  if t.cooked = 0 then none
  else (readLine count fuel [] t.queue).map fun r => (r.1, ⟨r.2, t.cooked - 1⟩)

/-! ## What is typed -/

/-- The lines completed so far, and the text of the one being typed. -/
structure TypedText where
  lines : List (List UInt8)
  current : List UInt8

/-- A key: Enter completes the line, Backspace deletes the last character of the line. -/
def TypedText.key (d : TypedText) (ch : UInt8) : TypedText :=
  if ch = '\n'.toUInt8 then ⟨d.lines ++ [d.current ++ [ch]], []⟩
  else if ch = '\x08'.toUInt8 then ⟨d.lines, d.current.dropLast⟩
  else ⟨d.lines, d.current ++ [ch]⟩

/-- What the keys `chs` amount to. -/
def typedText (chs : List UInt8) : TypedText := chs.foldl TypedText.key ⟨[], []⟩

theorem typedText_snoc (chs : List UInt8) (ch : UInt8) :
    typedText (chs ++ [ch]) = (typedText chs).key ch := by
  unfold typedText
  rw [List.foldl_append, List.foldl_cons, List.foldl_nil]

/-- The lines that are complete stay. -/
theorem TypedText.lines_key (d : TypedText) (ch : UInt8) : d.lines <+: (d.key ch).lines := by
  unfold TypedText.key
  split
  · exact List.prefix_append _ _
  · split <;> exact List.prefix_rfl

/-! ## The system -/

/-- A tty with its ghost state. -/
structure TtyInputState where
  tty : TtyInput
  /-- the characters cooked so far -/
  typed : List UInt8
  /-- the reads so far: the `count` asked for, and the bytes copied -/
  reads : List (ℕ × List UInt8)

inductive TtyInputEvent
  | cook (ch : UInt8) (ret : ℕ)
  | read (count : ℕ) (got : List UInt8)

inductive TtyInputStep : TtyInputState → TtyInputEvent → TtyInputState → Prop
  | cook {s : TtyInputState} {ch : UInt8} {ret : ℕ} {t : TtyInput} :
      ch ≠ 0 → ttyCook ch s.tty = some (ret, t) →
      TtyInputStep s (.cook ch ret) ⟨t, s.typed ++ [ch], s.reads⟩
  | read {s : TtyInputState} {fuel count : ℕ} {got : List UInt8} {t : TtyInput} :
      ttyRead fuel count s.tty = some (got, t) →
      TtyInputStep s (.read count got) ⟨t, s.typed, s.reads ++ [(count, got)]⟩

/-- The state `tty_init` leaves: the last byte of the buffer is taken to be `'\0'`. -/
def TtyInputStart (s : TtyInputState) : Prop :=
  s.tty.queue.front = 0 ∧ s.tty.queue.rear = 0 ∧ s.tty.queue.buf (TTY_COOK_BUF_SZ - 1) = 0 ∧
    s.tty.cooked = 0 ∧ s.typed = [] ∧ s.reads = []

def TtyInputRun : List (TtyInputState × TtyInputEvent) → TtyInputState → Prop :=
  Run TtyInputStart TtyInputStep

/-! ## The ring -/

/-- The ring holds the bytes `w`. -/
def QueueHolds (q : TtyQueue) (w : List UInt8) : Prop :=
  Ring.Holds TTY_COOK_BUF_SZ q.buf q.front q.rear w

/-- The ring holds the bytes `w`, and the byte before `front` is `'\0'`. -/
structure QueueInv (q : TtyQueue) (w : List UInt8) : Prop where
  front_lt : q.front < TTY_COOK_BUF_SZ
  rear_lt : q.rear < TTY_COOK_BUF_SZ
  window : Ring.window TTY_COOK_BUF_SZ q.buf q.front q.rear = w
  before : q.buf (Ring.pred TTY_COOK_BUF_SZ q.front) = 0

/-- The byte before `front`, which no line holds. -/
def TtyQueue.before (q : TtyQueue) : UInt8 := q.buf (Ring.pred TTY_COOK_BUF_SZ q.front)

section Queue

variable {q q' : TtyQueue} {w : List UInt8} {ch : UInt8}

theorem QueueInv.holds (h : QueueInv q w) : QueueHolds q w := ⟨h.front_lt, h.rear_lt, h.window⟩

theorem QueueHolds.inv (h : QueueHolds q w) (hb : q.before = 0) : QueueInv q w :=
  ⟨h.head_lt, h.tail_lt, h.window, hb⟩

/-- `tty_enqueue` without its branches. -/
theorem ttyEnqueue_eq (hr : q.rear < TTY_COOK_BUF_SZ) : ttyEnqueue ch q =
    if (q.rear + 1) % TTY_COOK_BUF_SZ = q.front then none
    else some { q with
      rear := (q.rear + 1) % TTY_COOK_BUF_SZ
      buf := Function.update (Function.update q.buf q.rear ch)
        ((q.rear + 1) % TTY_COOK_BUF_SZ) 0 } := by
  rw [Ring.succ_mod_eq hr]
  unfold ttyEnqueue
  by_cases hend : q.rear + 1 = TTY_COOK_BUF_SZ
  · simp only [hend, if_true]
  · simp only [hend, if_false]

/-- `tty_enqueue` puts a byte behind the others. It clears the cell before `front` when it fills the
ring. -/
theorem QueueHolds.enqueue (h : QueueHolds q w) (hq : ttyEnqueue ch q = some q') :
    QueueHolds q' (w ++ [ch]) ∧
      q'.before = if w.length + 2 = TTY_COOK_BUF_SZ then 0 else q.before := by
  rw [ttyEnqueue_eq h.tail_lt] at hq
  split at hq
  · cases hq
  · rename_i hne
    obtain rfl := Option.some.inj hq
    have hpush := h.push hne ch
    have hfull := hpush.tail_eq_pred_iff
    rw [List.length_append, List.length_singleton] at hfull
    refine ⟨hpush.update_tail 0, ?_⟩
    by_cases hb : (q.rear + 1) % TTY_COOK_BUF_SZ = Ring.pred TTY_COOK_BUF_SZ q.front
    · rw [if_pos (hfull.1 hb)]
      exact (congrArg _ hb.symm).trans (Function.update_self _ _ _)
    · rw [if_neg (mt hfull.2 hb)]
      refine (Function.update_of_ne (Ne.symm hb) _ _).trans (Function.update_of_ne ?_ _ _)
      intro he
      apply hne
      rw [← he, Ring.succ_pred_mod h.head_lt]

theorem QueueInv.enqueue (h : QueueInv q w) (hq : ttyEnqueue ch q = some q') :
    QueueInv q' (w ++ [ch]) := by
  rcases h.holds.enqueue hq with ⟨hholds, hb⟩
  refine hholds.inv (hb.trans ?_)
  split
  · rfl
  · exact h.before

theorem ttyPopBack_eq (hf : q.front < TTY_COOK_BUF_SZ) : ttyPopBack q =
    if q.buf (Ring.pred TTY_COOK_BUF_SZ q.rear) ≠ 0 then
      (0, { q with
        rear := Ring.pred TTY_COOK_BUF_SZ q.rear
        buf := Function.update q.buf (Ring.pred TTY_COOK_BUF_SZ q.rear) 0 })
    else (1, q) := by
  unfold ttyPopBack Ring.pred
  rw [if_pos (Nat.ne_of_lt hf)]
  by_cases hz : q.rear = 0
  · simp only [if_pos hz]
  · simp only [if_neg hz]

/-- `tty_pop_back` takes a character at the end of the ring away, and `rear` one step back. -/
theorem QueueHolds.popBack (h : QueueHolds q (w ++ [ch])) (hch : ch ≠ 0) :
    ttyPopBack q = (0, { q with
      rear := Ring.pred TTY_COOK_BUF_SZ q.rear
      buf := Function.update q.buf (Ring.pred TTY_COOK_BUF_SZ q.rear) 0 }) ∧
      QueueHolds (ttyPopBack q).2 w ∧ (ttyPopBack q).2.before = q.before := by
  rcases Ring.Holds.popBack h with ⟨hlast, hrest⟩
  have hpop := ttyPopBack_eq h.head_lt
  rw [if_pos (by rwa [hlast])] at hpop
  refine ⟨hpop, ?_, ?_⟩
  · rw [hpop]
    exact hrest.update_tail 0
  · rw [hpop]
    apply Function.update_of_ne
    intro he
    apply mt h.eq_iff.1 (List.concat_ne_nil ch w)
    rw [← Ring.succ_pred_mod h.head_lt, he, Ring.succ_pred_mod h.tail_lt]

/-- `tty_pop_back` deletes a character at the end of the ring. -/
theorem QueueInv.popBack (h : QueueInv q (w ++ [ch])) (hch : ch ≠ 0) :
    (ttyPopBack q).1 = 0 ∧ QueueInv (ttyPopBack q).2 w := by
  rcases h.holds.popBack hch with ⟨hpop, hholds, hb⟩
  exact ⟨by rw [hpop], hholds.inv (hb.trans h.before)⟩

/-- It does nothing behind the end of a line. -/
theorem QueueHolds.popBack_end (h : QueueHolds q (w ++ [0])) : ttyPopBack q = (1, q) := by
  rw [ttyPopBack_eq h.head_lt, if_neg (not_not.2 (Ring.Holds.popBack h).1)]

/-- In an empty ring it looks at the byte before `front`. -/
theorem QueueHolds.popBack_nil (h : QueueHolds q []) : q.rear = q.front ∧ ttyPopBack q =
    if q.before ≠ 0 then
      (0, { q with
        rear := Ring.pred TTY_COOK_BUF_SZ q.front
        buf := Function.update q.buf (Ring.pred TTY_COOK_BUF_SZ q.front) 0 })
    else (1, q) := by
  have he := h.eq_iff.2 rfl
  refine ⟨he.symm, ?_⟩
  rw [ttyPopBack_eq h.head_lt, ← he]
  rfl

/-- It does nothing at the start of a line, be it behind another line or behind nothing. -/
theorem QueueInv.popBack_start (h : QueueInv q w) (hw : w = [] ∨ ∃ w', w = w' ++ [0]) :
    ttyPopBack q = (1, q) := by
  rcases hw with rfl | ⟨w', rfl⟩
  · rw [h.holds.popBack_nil.2]
    exact if_neg (not_not.2 h.before)
  · exact h.holds.popBack_end

theorem QueueHolds.pop (h : QueueHolds q (ch :: w)) : q.buf q.front = ch ∧
    QueueHolds { q with front := (q.front + 1) % TTY_COOK_BUF_SZ } w :=
  Ring.Holds.pop h

/-- One round of the loop of `tty_read`. -/
theorem readLine_succ (hf : q.front < TTY_COOK_BUF_SZ) (count fuel : ℕ) (got : List UInt8) :
    readLine count (fuel + 1) got q =
      let got := if got.length < count ∧ q.buf q.front ≠ 0 then got ++ [q.buf q.front] else got
      let q' := { q with front := (q.front + 1) % TTY_COOK_BUF_SZ }
      if q.buf q.front = 0 then some (got, q') else readLine count fuel got q' := by
  rw [Ring.succ_mod_eq hf, readLine]
  by_cases hend : q.front + 1 = TTY_COOK_BUF_SZ
  · simp only [hend, if_true]
  · simp only [hend, if_false]

/-- The loop of `tty_read` takes the first line off the ring. -/
theorem readLine_spec {line rest : List UInt8} (count : ℕ) (h : QueueHolds q (line ++ 0 :: rest))
    (hline : 0 ∉ line) (fuel : ℕ) (got : List UInt8) :
    (readLine count fuel got q = none ∧ fuel ≤ line.length) ∨
    ∃ q', readLine count fuel got q = some (got ++ line.take (count - got.length), q') ∧
      QueueInv q' rest := by
  -- on the line: its end comes after its characters, and each takes a round
  induction line generalizing q fuel got with
  | nil =>
      cases fuel with
      | zero => exact Or.inl ⟨rfl, Nat.le_refl 0⟩
      | succ fuel =>
          rcases h.pop with ⟨hhead, hrest⟩
          right
          refine ⟨{ q with front := (q.front + 1) % TTY_COOK_BUF_SZ }, ?_, hrest.inv ?_⟩
          · rw [readLine_succ h.head_lt]
            simp [hhead]
          · change q.buf (Ring.pred _ ((q.front + 1) % _)) = 0
            rw [Ring.pred_succ_mod h.head_lt]
            exact hhead
  | cons ch line ih =>
      cases fuel with
      | zero => exact Or.inl ⟨rfl, Nat.zero_le _⟩
      | succ fuel =>
          rcases h.pop with ⟨hhead, hrest⟩
          rw [List.mem_cons, not_or] at hline
          have hch : ch ≠ 0 := Ne.symm hline.1
          rw [readLine_succ h.head_lt]
          simp only [hhead, if_neg hch]
          rcases ih hrest hline.2 fuel
            (if got.length < count ∧ ch ≠ 0 then got ++ [ch] else got) with ⟨hnone, hle⟩ |
            ⟨q', hsome, hinv⟩
          · exact Or.inl ⟨hnone, Nat.succ_le_succ hle⟩
          · right
            refine ⟨q', hsome.trans ?_, hinv⟩
            congr 2
            by_cases hlen : got.length < count
            · rw [if_pos ⟨hlen, hch⟩, List.length_append, List.length_singleton,
                show count - got.length = (count - (got.length + 1)) + 1 by omega,
                List.take_succ_cons, List.append_assoc, List.singleton_append]
            · rw [if_neg fun hc => hlen hc.1, show count - got.length = 0 by omega, List.take_zero,
                List.take_zero]

end Queue

section Calls

variable {t t' : TtyInput} {ch : UInt8} {ret fuel count : ℕ} {got : List UInt8}

/-- Everything `tty_cook` can do: complete the line, take a character back, or append one. -/
theorem ttyCook_cases (h : ttyCook ch t = some (ret, t')) :
    (ch = '\n'.toUInt8 ∧ ret = 0 ∧ ∃ q q', ttyEnqueue '\n'.toUInt8 t.queue = some q ∧
      ttyEnqueue 0 q = some q' ∧ t' = ⟨q', t.cooked + 1⟩) ∨
    (ch = '\x08'.toUInt8 ∧ ret = (ttyPopBack t.queue).1 ∧
      t' = ⟨(ttyPopBack t.queue).2, t.cooked⟩) ∨
    (ch ≠ '\n'.toUInt8 ∧ ch ≠ '\x08'.toUInt8 ∧ ret = 0 ∧
      ∃ q, ttyEnqueue ch t.queue = some q ∧ t' = ⟨q, t.cooked⟩) := by
  unfold ttyCook at h
  split at h
  · rename_i hn
    rcases Option.bind_eq_some_iff.1 h with ⟨q, hq, h⟩
    rcases Option.map_eq_some_iff.1 h with ⟨q', hq', he⟩
    rcases Prod.mk.inj he with ⟨rfl, rfl⟩
    exact Or.inl ⟨hn, rfl, q, q', hn ▸ hq, hq', rfl⟩
  · rename_i hn
    right
    split at h
    · rename_i hb
      rcases Prod.mk.inj (Option.some.inj h) with ⟨rfl, rfl⟩
      exact Or.inl ⟨hb, rfl, rfl⟩
    · rename_i hb
      rcases Option.map_eq_some_iff.1 h with ⟨q, hq, he⟩
      rcases Prod.mk.inj he with ⟨rfl, rfl⟩
      exact Or.inr ⟨hn, hb, rfl, q, hq, rfl⟩

/-- `tty_read` waits for a line. -/
theorem ttyRead_cooked (h : ttyRead fuel count t = some (got, t')) : t.cooked ≠ 0 := by
  intro hc
  rw [ttyRead, if_pos hc] at h
  cases h

/-- `tty_read` takes the first line, of which it copies the first bytes. -/
theorem ttyRead_cases {line rest : List UInt8} (hq : QueueHolds t.queue (line ++ 0 :: rest))
    (hline : 0 ∉ line) (h : ttyRead fuel count t = some (got, t')) :
    got = line.take count ∧ QueueInv t'.queue rest ∧ t'.cooked + 1 = t.cooked := by
  have hc := ttyRead_cooked h
  rw [ttyRead, if_neg hc] at h
  rcases Option.map_eq_some_iff.1 h with ⟨⟨got', q'⟩, hloop, he⟩
  rcases Prod.mk.inj he with ⟨rfl, rfl⟩
  rcases readLine_spec count hq hline fuel [] with ⟨hnone, -⟩ | ⟨q, hsome, hinv⟩
  · cases hnone.symm.trans hloop
  · rcases Prod.mk.inj (Option.some.inj (hsome.symm.trans hloop)) with ⟨rfl, rfl⟩
    exact ⟨rfl, hinv, Nat.sub_add_cancel (Nat.pos_of_ne_zero hc)⟩

end Calls

/-! ## The invariant -/

/-- The bytes in the ring after `reads` reads: the lines not read, each with its `'\0'`, and the
line being typed. -/
def TypedText.pending (d : TypedText) (reads : ℕ) : List UInt8 :=
  ((d.lines.drop reads).flatMap fun line => line ++ [0]) ++ d.current

/-- What holds between two calls. -/
structure TtyInputInv (s : TtyInputState) : Prop where
  queue : QueueInv s.tty.queue ((typedText s.typed).pending s.reads.length)
  cooked : s.tty.cooked + s.reads.length = (typedText s.typed).lines.length
  lines : ∀ line ∈ (typedText s.typed).lines, 0 ∉ line
  current : 0 ∉ (typedText s.typed).current

theorem TtyInputStart.inv {s : TtyInputState} (h : TtyInputStart s) : TtyInputInv s := by
  rcases h with ⟨hf, hr, hlast, hc, ht, hreads⟩
  have hpos : 0 < TTY_COOK_BUF_SZ := by decide
  rw [← hf] at hpos
  refine ⟨⟨hpos, by rwa [hr, ← hf], ?_, ?_⟩, ?_, ?_, ?_⟩
  · rw [ht, hreads, (Ring.window_eq_nil_iff hpos (by rwa [hr, ← hf])).2 (hf.trans hr.symm)]
    rfl
  · rw [hf]
    exact hlast
  · rw [hc, ht, hreads]
    rfl
  · rw [ht]
    simp [typedText]
  · rw [ht]
    simp [typedText]

section Pending

variable {d : TypedText} {n : ℕ} {ch : UInt8}

/-- Typing a character of a line. -/
theorem TypedText.pending_char (hn : ch ≠ '\n'.toUInt8) (hb : ch ≠ '\x08'.toUInt8) :
    (d.key ch).pending n = d.pending n ++ [ch] := by
  unfold TypedText.key TypedText.pending
  rw [if_neg hn, if_neg hb, List.append_assoc]

/-- Enter puts the character and the end of the line behind what is there. -/
theorem TypedText.pending_enter (hn : n ≤ d.lines.length) :
    (d.key '\n'.toUInt8).pending n = d.pending n ++ ['\n'.toUInt8] ++ [0] := by
  unfold TypedText.key TypedText.pending
  rw [if_pos rfl, List.drop_append_of_le_length hn, List.flatMap_append]
  simp

/-- Backspace in a line takes its last character away. -/
theorem TypedText.pending_back {l : List UInt8} {x : UInt8} (hcur : d.current = l ++ [x]) :
    d.pending n = (d.key '\x08'.toUInt8).pending n ++ [x] := by
  unfold TypedText.key TypedText.pending
  rw [if_neg (by decide), if_pos rfl, hcur, List.dropLast_concat, List.append_assoc]

theorem TypedText.key_back_nil (hcur : d.current = []) : d.key '\x08'.toUInt8 = d := by
  unfold TypedText.key
  rw [if_neg (by decide), if_pos rfl, hcur, List.dropLast_nil, ← hcur]

/-- Lines hold no `'\0'` as long as none is typed. -/
theorem TypedText.noNul_key (hch : ch ≠ 0) (hlines : ∀ line ∈ d.lines, 0 ∉ line)
    (hcur : 0 ∉ d.current) : (∀ line ∈ (d.key ch).lines, 0 ∉ line) ∧ 0 ∉ (d.key ch).current := by
  have hsnoc : 0 ∉ d.current ++ [ch] := by
    rw [List.mem_append, not_or]
    exact ⟨hcur, fun hmem => hch (List.mem_singleton.1 hmem).symm⟩
  unfold TypedText.key
  split
  · refine ⟨fun line hline => ?_, List.not_mem_nil⟩
    rcases List.mem_append.1 hline with hline | hline
    · exact hlines line hline
    · rw [List.mem_singleton.1 hline]
      exact hsnoc
  · split
    · exact ⟨hlines, fun hmem => hcur (List.dropLast_subset _ hmem)⟩
    · exact ⟨hlines, hsnoc⟩

/-- At the start of a line the ring is empty or ends with the end of another line. -/
theorem TypedText.pending_start (hcur : d.current = []) :
    d.pending n = [] ∨ ∃ w, d.pending n = w ++ [0] := by
  unfold TypedText.pending
  rw [hcur, List.append_nil]
  rcases (d.lines.drop n).eq_nil_or_concat with hnil | ⟨ls, line, hls⟩
  · left
    rw [hnil, List.flatMap_nil]
  · right
    refine ⟨(ls.flatMap fun line => line ++ [0]) ++ line, ?_⟩
    rw [hls, List.concat_eq_append, List.flatMap_append, List.flatMap_singleton,
      List.append_assoc]

/-- The first line not read. -/
theorem TypedText.pending_read {line : List UInt8} (hline : d.lines[n]? = some line) :
    d.pending n = line ++ 0 :: d.pending (n + 1) := by
  rcases List.getElem?_eq_some_iff.1 hline with ⟨hn, rfl⟩
  unfold TypedText.pending
  rw [List.drop_eq_getElem_cons hn, List.flatMap_cons, List.append_assoc, List.append_assoc,
    List.singleton_append]

end Pending

/-- The answer of `tty_cook`: whether there was nothing to delete. -/
def CookAnswers (s : TtyInputState) (e : TtyInputEvent) : Prop :=
  ∀ ch ret, e = .cook ch ret →
    ret = if ch = '\x08'.toUInt8 ∧ (typedText s.typed).current = [] then 1 else 0

/-- The `k`-th read got the `k`-th line, or as much of it as it asked for. -/
def ReadsLines (s : TtyInputState) : Prop :=
  ∀ (k count : ℕ) (got : List UInt8), s.reads[k]? = some (count, got) →
    ∃ line : List UInt8, (typedText s.typed).lines[k]? = some line ∧ got = line.take count

section Steps

variable {s s' : TtyInputState} {ch : UInt8} {ret fuel count : ℕ} {got : List UInt8}
  {t : TtyInput}

/-- The invariant after a key, whatever it does to the queue. -/
theorem TtyInputInv.key (h : TtyInputInv s) (hch : ch ≠ 0) {q : TtyQueue} {c : ℕ}
    (hq : QueueInv q (((typedText s.typed).key ch).pending s.reads.length))
    (hc : c + s.reads.length = ((typedText s.typed).key ch).lines.length) :
    TtyInputInv ⟨⟨q, c⟩, s.typed ++ [ch], s.reads⟩ := by
  have hnul := TypedText.noNul_key hch h.lines h.current
  refine ⟨?_, ?_, ?_, ?_⟩
  all_goals rw [typedText_snoc]
  · exact hq
  · exact hc
  · exact hnul.1
  · exact hnul.2

theorem TtyInputInv.enter (h : TtyInputInv s) {q q' : TtyQueue}
    (hq : ttyEnqueue '\n'.toUInt8 s.tty.queue = some q) (hq' : ttyEnqueue 0 q = some q') :
    TtyInputInv ⟨⟨q', s.tty.cooked + 1⟩, s.typed ++ ['\n'.toUInt8], s.reads⟩ := by
  have hcooked := h.cooked
  apply h.key (by decide)
  · rw [TypedText.pending_enter (by omega)]
    exact (h.queue.enqueue hq).enqueue hq'
  · rw [TypedText.key, if_pos rfl, List.length_append, List.length_singleton]
    omega

/-- Backspace on an empty line, and on one with a last character. -/
theorem TtyInputInv.back (h : TtyInputInv s) :
    TtyInputInv ⟨⟨(ttyPopBack s.tty.queue).2, s.tty.cooked⟩, s.typed ++ ['\x08'.toUInt8], s.reads⟩ ∧
      (ttyPopBack s.tty.queue).1 = if (typedText s.typed).current = [] then 1 else 0 := by
  have hlines : ((typedText s.typed).key '\x08'.toUInt8).lines = (typedText s.typed).lines := by
    rw [TypedText.key, if_neg (by decide), if_pos rfl]
  have hcooked : s.tty.cooked + s.reads.length =
      ((typedText s.typed).key '\x08'.toUInt8).lines.length := by
    rw [hlines]
    exact h.cooked
  have hqueue := h.queue
  rcases (typedText s.typed).current.eq_nil_or_concat with hnil | ⟨l, x, hx⟩
  · rw [if_pos hnil, hqueue.popBack_start (TypedText.pending_start hnil)]
    refine ⟨h.key (by decide) ?_ hcooked, rfl⟩
    rw [TypedText.key_back_nil hnil]
    exact hqueue
  · rw [List.concat_eq_append] at hx
    have hx0 : x ≠ 0 := by
      rintro rfl
      apply h.current
      rw [hx]
      exact List.mem_append_right _ List.mem_cons_self
    rw [TypedText.pending_back hx] at hqueue
    rcases hqueue.popBack hx0 with ⟨hret, hpop⟩
    refine ⟨h.key (by decide) hpop hcooked, ?_⟩
    rw [hret, hx, if_neg (by simp)]

theorem TtyInputInv.char (h : TtyInputInv s) (hch : ch ≠ 0) (hn : ch ≠ '\n'.toUInt8)
    (hb : ch ≠ '\x08'.toUInt8) {q : TtyQueue} (hq : ttyEnqueue ch s.tty.queue = some q) :
    TtyInputInv ⟨⟨q, s.tty.cooked⟩, s.typed ++ [ch], s.reads⟩ := by
  apply h.key hch
  · rw [TypedText.pending_char hn hb]
    exact h.queue.enqueue hq
  · rw [TypedText.key, if_neg hn, if_neg hb]
    exact h.cooked

theorem TtyInputInv.cook (h : TtyInputInv s) (hch : ch ≠ 0)
    (hcook : ttyCook ch s.tty = some (ret, t)) :
    TtyInputInv ⟨t, s.typed ++ [ch], s.reads⟩ ∧
      ret = if ch = '\x08'.toUInt8 ∧ (typedText s.typed).current = [] then 1 else 0 := by
  rcases ttyCook_cases hcook with ⟨rfl, rfl, q, q', hq, hq', rfl⟩ | ⟨rfl, rfl, rfl⟩ |
    ⟨hn, hb, rfl, q, hq, rfl⟩
  · exact ⟨h.enter hq hq', (if_neg fun hc => absurd hc.1 (by decide)).symm⟩
  · refine ⟨h.back.1, h.back.2.trans ?_⟩
    simp
  · exact ⟨h.char hch hn hb hq, (if_neg fun hc => hb hc.1).symm⟩

/-- A read that was signalled finds the next line. -/
theorem TtyInputInv.next_line (h : TtyInputInv s) (hc : s.tty.cooked ≠ 0) :
    ∃ line, (typedText s.typed).lines[s.reads.length]? = some line := by
  have hcooked := h.cooked
  exact ⟨_, List.getElem?_eq_getElem (by omega)⟩

/-- The ring, with the next line in front. -/
theorem TtyInputInv.holds_line (h : TtyInputInv s) {line : List UInt8}
    (hline : (typedText s.typed).lines[s.reads.length]? = some line) :
    QueueHolds s.tty.queue
      (line ++ 0 :: (typedText s.typed).pending (s.reads.length + 1)) := by
  rw [← TypedText.pending_read hline]
  exact h.queue.holds

/-- A read gets the first bytes of the next line. -/
theorem TtyInputInv.read (h : TtyInputInv s) (hread : ttyRead fuel count s.tty = some (got, t)) :
    TtyInputInv ⟨t, s.typed, s.reads ++ [(count, got)]⟩ ∧
      ∃ line, (typedText s.typed).lines[s.reads.length]? = some line ∧ got = line.take count := by
  rcases h.next_line (ttyRead_cooked hread) with ⟨line, hline⟩
  rcases ttyRead_cases (h.holds_line hline) (h.lines line (List.mem_of_getElem? hline)) hread with
    ⟨hgot, hq, hcooked'⟩
  have hcooked := h.cooked
  refine ⟨⟨?_, ?_, h.lines, h.current⟩, line, hline, hgot⟩
  · rw [List.length_append, List.length_singleton]
    exact hq
  · simp only [List.length_append, List.length_singleton]
    omega

/-- With as many rounds as the line has characters, and one for its end, the read comes back. -/
theorem TtyInputInv.read_returns (h : TtyInputInv s) (hc : s.tty.cooked ≠ 0) (count : ℕ) :
    ∃ fuel got t, ttyRead fuel count s.tty = some (got, t) := by
  rcases h.next_line hc with ⟨line, hline⟩
  rcases readLine_spec count (h.holds_line hline) (h.lines line (List.mem_of_getElem? hline))
    (line.length + 1) [] with ⟨-, hle⟩ | ⟨q, hsome, -⟩
  · omega
  · refine ⟨line.length + 1, line.take count, ⟨q, s.tty.cooked - 1⟩, ?_⟩
    unfold ttyRead
    rw [if_neg hc, hsome]
    rfl

/-- The lines complete before a key are still there after it. -/
theorem ReadsLines.cook (h : ReadsLines s) (t : TtyInput) (ch : UInt8) :
    ReadsLines ⟨t, s.typed ++ [ch], s.reads⟩ := by
  intro k count got hk
  rcases h k count got hk with ⟨line, hline, hgot⟩
  refine ⟨line, ?_, hgot⟩
  rw [typedText_snoc]
  rcases (typedText s.typed).lines_key ch with ⟨rest, hrest⟩
  rw [← hrest, List.getElem?_append_left (List.getElem?_eq_some_iff.1 hline).1]
  exact hline

theorem ReadsLines.read (h : ReadsLines s) (t : TtyInput) {line : List UInt8}
    (hline : (typedText s.typed).lines[s.reads.length]? = some line) (hgot : got = line.take count) :
    ReadsLines ⟨t, s.typed, s.reads ++ [(count, got)]⟩ := by
  intro k count' got' hk
  rcases Nat.lt_trichotomy k s.reads.length with hlt | rfl | hgt
  · rw [List.getElem?_append_left hlt] at hk
    exact h k count' got' hk
  · rw [List.getElem?_concat_length] at hk
    rcases Prod.mk.inj (Option.some.inj hk) with ⟨rfl, rfl⟩
    exact ⟨line, hline, hgot⟩
  · have hlen := (List.getElem?_eq_some_iff.1 hk).1
    rw [List.length_append, List.length_singleton] at hlen
    omega

/-- Every step keeps the invariant, and every read gets its line. -/
theorem TtyInputStep.inv {e : TtyInputEvent} (hst : TtyInputStep s e s') (h : TtyInputInv s)
    (hreads : ReadsLines s) : TtyInputInv s' ∧ ReadsLines s' ∧ CookAnswers s e := by
  cases hst with
  | cook hch hcook =>
      rcases h.cook hch hcook with ⟨hinv, hret⟩
      refine ⟨hinv, hreads.cook _ _, ?_⟩
      rintro _ _ ⟨⟩
      exact hret
  | read hread =>
      rcases h.read hread with ⟨hinv, line, hline, hgot⟩
      exact ⟨hinv, hreads.read _ hline hgot, nofun⟩

end Steps

/-! ## Round trip -/

theorem TtyInputRun.inv {h : List (TtyInputState × TtyInputEvent)} {s : TtyInputState}
    (hr : TtyInputRun h s) : TtyInputInv s ∧ ReadsLines s := by
  refine hr.invariant (I := fun s => TtyInputInv s ∧ ReadsLines s) ?_ ?_
  · intro s hs
    refine ⟨hs.inv, ?_⟩
    intro k count got hk
    rw [hs.2.2.2.2.2] at hk
    simp at hk
  · intro s e t hI hst
    rcases hst.inv hI.1 hI.2 with ⟨hinv, hreads, -⟩
    exact ⟨hinv, hreads⟩

/-- What `tty_cook` and `tty_read` are for, at the end of the run with history `h`. -/
structure LineDiscipline (h : List (TtyInputState × TtyInputEvent)) (s : TtyInputState) : Prop where
  reads : ReadsLines s
  /-- as many reads are to come as there are complete lines not read -/
  cooked : s.tty.cooked + s.reads.length = (typedText s.typed).lines.length
  returns : s.tty.cooked ≠ 0 → ∀ count, ∃ got s', TtyInputStep s (.read count got) s'
  cooks : AllSteps CookAnswers h

/-- For every sequence of keys and reads, across any number of wraps of the ring. -/
theorem lineDiscipline_of_run {h : List (TtyInputState × TtyInputEvent)} {s : TtyInputState}
    (hr : TtyInputRun h s) : LineDiscipline h s := by
  rcases hr.inv with ⟨hinv, hreads⟩
  refine ⟨hreads, hinv.cooked, ?_, ?_⟩
  · intro hc count
    rcases hinv.read_returns hc count with ⟨fuel, got, t, hread⟩
    exact ⟨got, _, .read hread⟩
  · clear hinv hreads
    induction hr with
    | start _ => exact allSteps_nil
    | snoc hr hst ih =>
        rcases TtyInputRun.inv hr with ⟨hinv, hreads⟩
        exact allSteps_cons.2 ⟨(hst.inv hinv hreads).2.2, ih⟩

/-- A queue whose buffer is all `'\0'`. -/
def emptyTty : TtyInputState := ⟨⟨⟨fun _ => 0, 0, 0⟩, 0⟩, [], []⟩

/-- The keys `h`, `j`, Backspace, `i`, Enter, and a read of up to two bytes. -/
theorem lineDiscipline_hi : ∃ h s, TtyInputRun h s ∧ s.reads = [(2, [104, 105])] ∧
    LineDiscipline h s := by
  have hr : TtyInputRun _ _ :=
    Run.snoc (Run.snoc (Run.snoc (Run.snoc (Run.snoc (Run.snoc
      (Run.start (show TtyInputStart emptyTty from ⟨rfl, rfl, rfl, rfl, rfl, rfl⟩))
      (show TtyInputStep _ (.cook 104 0) _ from .cook (by decide) rfl))
      (show TtyInputStep _ (.cook 106 0) _ from .cook (by decide) rfl))
      (show TtyInputStep _ (.cook 8 0) _ from .cook (by decide) rfl))
      (show TtyInputStep _ (.cook 105 0) _ from .cook (by decide) rfl))
      (show TtyInputStep _ (.cook 10 0) _ from .cook (by decide) rfl))
      (show TtyInputStep _ (.read 2 [104, 105]) _ from
        .read (show ttyRead 4 2 _ = some (_, _) from rfl))
  exact ⟨_, _, hr, rfl, lineDiscipline_of_run hr⟩

end OsLab

import OsLab.Dev.TtyQueue

/-! # Backspace on a line that is not finished (`dev_tty.c`)

`tty_pop_back` is to delete only what was typed since the last Enter. Its guard
`q->front != q->end` always holds, so the byte before `rear` decides alone. In an
empty ring that byte is outside the ring: the end of the line read last, or, as
long as nothing was read, the last byte of the buffer. Neither `pmm->alloc` nor
`tty_init` clears it; `tty_enqueue` does when it fills the ring
(`backspaceKeeps_iff`).

Every byte may be typed, also `'\0'`, which the ring takes for the end of a line.
-/

namespace OsLab

open Trace

/-! ## What is typed -/

/-- A key as the ring sees it: a `'\0'` ends the line too. -/
def TypedText.stroke (d : TypedText) (ch : UInt8) : TypedText :=
  if ch = 0 then ⟨d.lines ++ [d.current], []⟩ else d.key ch

/-- What the keys `chs` amount to. -/
def strokes (chs : List UInt8) : TypedText := chs.foldl TypedText.stroke ⟨[], []⟩

theorem strokes_snoc (chs : List UInt8) (ch : UInt8) :
    strokes (chs ++ [ch]) = (strokes chs).stroke ch := by
  unfold strokes
  rw [List.foldl_append, List.foldl_cons, List.foldl_nil]

/-- As long as nothing is read, the ring never held as many bytes as it can. -/
def NeverFull (chs : List UInt8) : Prop :=
  ∀ p, p <+: chs → ((strokes p).pending 0).length + 1 < TTY_COOK_BUF_SZ

theorem neverFull_nil : NeverFull [] := by
  intro p hp
  rw [List.prefix_nil.1 hp]
  decide

theorem neverFull_snoc {chs : List UInt8} {ch : UInt8} : NeverFull (chs ++ [ch]) ↔
    NeverFull chs ∧ (((strokes chs).stroke ch).pending 0).length + 1 < TTY_COOK_BUF_SZ := by
  rw [← strokes_snoc]
  constructor
  · intro h
    exact ⟨fun p hp => h p (hp.trans (List.prefix_append _ _)), h _ List.prefix_rfl⟩
  · rintro ⟨h, hlast⟩ p hp
    rcases List.prefix_concat_iff.1 hp with rfl | hp
    · exact hlast
    · exact h p hp

section Stroke

variable {d : TypedText} {n : ℕ} {ch : UInt8}

theorem TypedText.stroke_of_ne (h : ch ≠ 0) : d.stroke ch = d.key ch := if_neg h

/-- A key other than Enter and Backspace. -/
theorem TypedText.pending_stroke (hle : n ≤ d.lines.length) (hn : ch ≠ '\n'.toUInt8)
    (hb : ch ≠ '\x08'.toUInt8) : (d.stroke ch).pending n = d.pending n ++ [ch] := by
  by_cases hch : ch = 0
  · rw [hch, stroke, if_pos rfl, pending, pending, List.drop_append_of_le_length hle,
      List.flatMap_append]
    simp
  · rw [stroke_of_ne hch, pending_char hn hb]

/-- The complete lines stay, and one more ends with Enter. -/
theorem TypedText.length_lines_stroke : d.lines.length ≤ (d.stroke ch).lines.length := by
  unfold stroke
  split
  · exact (List.prefix_append _ _).length_le
  · exact (d.lines_key ch).length_le

theorem TypedText.noNul_stroke (hlines : ∀ line ∈ d.lines, 0 ∉ line) (hcur : 0 ∉ d.current) :
    (∀ line ∈ (d.stroke ch).lines, 0 ∉ line) ∧ 0 ∉ (d.stroke ch).current := by
  by_cases hch : ch = 0
  · rw [stroke, if_pos hch]
    refine ⟨fun line hline => ?_, List.not_mem_nil⟩
    rcases List.mem_append.1 hline with hline | hline
    · exact hlines line hline
    · rw [List.mem_singleton.1 hline]
      exact hcur
  · rw [stroke_of_ne hch]
    exact noNul_key hch hlines hcur

end Stroke

/-! ## The system -/

/-- The state `tty_init` leaves with the buffer `buf`. -/
def ttyStart (buf : ℕ → UInt8) : TtyInputState := ⟨⟨⟨buf, 0, 0⟩, 0⟩, [], []⟩

inductive TtyEditStep : TtyInputState → TtyInputEvent → TtyInputState → Prop
  | cook {s : TtyInputState} {ch : UInt8} {ret : ℕ} {t : TtyInput} :
      ttyCook ch s.tty = some (ret, t) →
      TtyEditStep s (.cook ch ret) ⟨t, s.typed ++ [ch], s.reads⟩
  | read {s : TtyInputState} {fuel count : ℕ} {got : List UInt8} {t : TtyInput} :
      ttyRead fuel count s.tty = some (got, t) →
      TtyEditStep s (.read count got) ⟨t, s.typed, s.reads ++ [(count, got)]⟩

def TtyEditRun (buf : ℕ → UInt8) : List (TtyInputState × TtyInputEvent) → TtyInputState → Prop :=
  Run (fun s => s = ttyStart buf) TtyEditStep

/-- The bytes from `front` to `rear`. -/
def TtyQueue.text (q : TtyQueue) : List UInt8 :=
  Ring.window TTY_COOK_BUF_SZ q.buf q.front q.rear

/-- From `q` to `q'` at most the last character of the unfinished line went. -/
structure BackspaceSafe (q q' : TtyQueue) : Prop where
  front : q'.front = q.front
  /-- not back over `front`, and not over a `'\0'` -/
  rear : q'.rear = q.rear ∨ q.rear ≠ q.front ∧ q.buf (Ring.pred TTY_COOK_BUF_SZ q.rear) ≠ 0 ∧
    q'.rear = Ring.pred TTY_COOK_BUF_SZ q.rear
  shorter : q'.text.length ≤ q.text.length
  /-- a line that is complete stays with all lines before it -/
  lines : ∀ c, c ++ [0] <+: q.text → c ++ [0] <+: q'.text

/-- Backspace edits only the unfinished line. -/
def BackspaceKeeps (s : TtyInputState) (e : TtyInputEvent) : Prop :=
  ∀ ret t, e = .cook '\x08'.toUInt8 ret → ttyCook '\x08'.toUInt8 s.tty = some (ret, t) →
    BackspaceSafe s.tty.queue t.queue

/-- Nothing was read, nothing is left of what was typed, and the ring has never been full. -/
def Unused (s : TtyInputState) : Prop :=
  s.reads = [] ∧ (strokes s.typed).pending 0 = [] ∧ NeverFull s.typed

/-- A Backspace on an unused ring finds `'\0'` in the last byte of the buffer. -/
def BackspaceOk (buf : ℕ → UInt8) (s : TtyInputState) (e : TtyInputEvent) : Prop :=
  ∀ ret, e = .cook '\x08'.toUInt8 ret → Unused s → buf (TTY_COOK_BUF_SZ - 1) = 0

/-! ## The invariant -/

/-- What holds between two calls, in runs that meet `BackspaceOk`. -/
structure EditInv (buf : ℕ → UInt8) (s : TtyInputState) : Prop where
  queue : QueueHolds s.tty.queue ((strokes s.typed).pending s.reads.length)
  /-- the byte before `front` is the last one of the buffer, until it is cleared or a line read -/
  fresh : s.reads = [] → NeverFull s.typed → s.tty.queue.before = buf (TTY_COOK_BUF_SZ - 1)
  cleared : ¬ (s.reads = [] ∧ NeverFull s.typed) → s.tty.queue.before = 0
  cooked : s.tty.cooked + s.reads.length ≤ (strokes s.typed).lines.length
  lines : ∀ line ∈ (strokes s.typed).lines, 0 ∉ line
  current : 0 ∉ (strokes s.typed).current

theorem editInv_start (buf : ℕ → UInt8) : EditInv buf (ttyStart buf) where
  queue := by
    have hpos : 0 < TTY_COOK_BUF_SZ := Nat.two_pow_pos 10
    exact Ring.Holds.nil hpos
  fresh _ _ := rfl
  cleared h := absurd ⟨rfl, neverFull_nil⟩ h
  cooked := Nat.le_refl 0
  lines _ h := absurd h List.not_mem_nil
  current := List.not_mem_nil

section Steps

variable {buf : ℕ → UInt8} {s s' : TtyInputState} {e : TtyInputEvent} {ch : UInt8}
  {ret fuel count : ℕ} {got : List UInt8} {t : TtyInput}

/-- The invariant after a key that leaves `q`: the byte before `front` is cleared when the ring gets
full. -/
theorem EditInv.key (h : EditInv buf s) {q : TtyQueue} {c : ℕ}
    (hq : QueueHolds q (((strokes s.typed).stroke ch).pending s.reads.length))
    (hbefore : q.before =
      if (((strokes s.typed).stroke ch).pending s.reads.length).length + 1 = TTY_COOK_BUF_SZ then 0
      else s.tty.queue.before)
    (hc : c + s.reads.length ≤ ((strokes s.typed).stroke ch).lines.length) :
    EditInv buf ⟨⟨q, c⟩, s.typed ++ [ch], s.reads⟩ := by
  have hnul := @TypedText.noNul_stroke _ ch h.lines h.current
  have hlt := hq.length_lt
  constructor
  · rw [strokes_snoc]
    exact hq
  · intro hr hnever
    rw [neverFull_snoc] at hnever
    change s.reads = [] at hr
    rw [hr, List.length_nil, if_neg (Nat.ne_of_lt hnever.2)] at hbefore
    exact hbefore.trans (h.fresh hr hnever.1)
  · intro hno
    refine hbefore.trans ?_
    split
    · rfl
    · rename_i hroom
      apply h.cleared
      rintro ⟨hr, hnever⟩
      apply hno
      refine ⟨hr, neverFull_snoc.2 ⟨hnever, ?_⟩⟩
      rw [hr, List.length_nil] at hroom hlt
      omega
  · rw [strokes_snoc]
    exact hc
  · rw [strokes_snoc]
    exact hnul.1
  · rw [strokes_snoc]
    exact hnul.2

theorem EditInv.enter (h : EditInv buf s) {q q' : TtyQueue}
    (hq : ttyEnqueue '\n'.toUInt8 s.tty.queue = some q) (hq' : ttyEnqueue 0 q = some q') :
    EditInv buf ⟨⟨q', s.tty.cooked + 1⟩, s.typed ++ ['\n'.toUInt8], s.reads⟩ := by
  have hcooked := h.cooked
  rcases h.queue.enqueue hq with ⟨hholds, hb⟩
  rcases hholds.enqueue hq' with ⟨hholds', hb'⟩
  have hpending : ((strokes s.typed).stroke '\n'.toUInt8).pending s.reads.length =
      (strokes s.typed).pending s.reads.length ++ ['\n'.toUInt8] ++ [0] := by
    rw [TypedText.stroke_of_ne (by decide), TypedText.pending_enter (by omega)]
  apply h.key
  · rw [hpending]
    exact hholds'
  · -- the ring is not full after the first of the two bytes
    have hlt := hholds'.length_lt
    rw [List.length_append, List.length_append, List.length_singleton, List.length_singleton] at hlt
    rw [if_neg (by omega)] at hb
    rw [hpending, List.length_append, List.length_singleton, hb', hb]
  · rw [TypedText.stroke_of_ne (by decide), TypedText.key, if_pos rfl, List.length_append,
      List.length_singleton]
    omega

theorem EditInv.char (h : EditInv buf s) (hn : ch ≠ '\n'.toUInt8) (hb : ch ≠ '\x08'.toUInt8)
    {q : TtyQueue} (hq : ttyEnqueue ch s.tty.queue = some q) :
    EditInv buf ⟨⟨q, s.tty.cooked⟩, s.typed ++ [ch], s.reads⟩ := by
  have hcooked := h.cooked
  rcases h.queue.enqueue hq with ⟨hholds, hbefore⟩
  have hpending := TypedText.pending_stroke (d := strokes s.typed) (n := s.reads.length)
    (by omega) hn hb
  apply h.key
  · rw [hpending]
    exact hholds
  · rw [hpending, List.length_append, List.length_singleton]
    exact hbefore
  · exact hcooked.trans TypedText.length_lines_stroke

/-- A full ring has `'\0'` before `front`. -/
theorem EditInv.before_of_full (h : EditInv buf s)
    (hfull : ((strokes s.typed).pending s.reads.length).length + 1 = TTY_COOK_BUF_SZ) :
    s.tty.queue.before = 0 := by
  apply h.cleared
  rintro ⟨hr, hnever⟩
  have hroom := hnever s.typed List.prefix_rfl
  rw [hr, List.length_nil] at hfull
  omega

/-- The ways a Backspace can go: on a character of the line, at the start of a line, and on an
unused ring. -/
theorem EditInv.back_cases (h : EditInv buf s) :
    (∃ l x, (strokes s.typed).current = l ++ [x] ∧ x ≠ 0 ∧ QueueHolds s.tty.queue
      (((strokes s.typed).stroke '\x08'.toUInt8).pending s.reads.length ++ [x])) ∨
    ((strokes s.typed).current = [] ∧ ttyPopBack s.tty.queue = (1, s.tty.queue) ∧
      (Unused s → buf (TTY_COOK_BUF_SZ - 1) = 0)) ∨
    (QueueHolds s.tty.queue [] ∧ s.tty.queue.before ≠ 0 ∧ Unused s ∧
      buf (TTY_COOK_BUF_SZ - 1) ≠ 0) := by
  have hqueue := h.queue
  rcases (strokes s.typed).current.eq_nil_or_concat with hnil | ⟨l, x, hx⟩
  · right
    have hunused : Unused s → (strokes s.typed).pending s.reads.length = [] := by
      rintro ⟨hr, hnone, -⟩
      rw [hr]
      exact hnone
    rcases TypedText.pending_start (n := s.reads.length) hnil with hempty | ⟨w, hw⟩
    · rw [hempty] at hqueue
      by_cases hb : s.tty.queue.before = 0
      · left
        refine ⟨hnil, ?_, ?_⟩
        · rw [hqueue.popBack_nil.2, if_neg (not_not.2 hb)]
        · rintro ⟨hr, -, hnever⟩
          exact (h.fresh hr hnever).symm.trans hb
      · right
        have hstate : s.reads = [] ∧ NeverFull s.typed :=
          Classical.byContradiction fun hno => hb (h.cleared hno)
        refine ⟨hqueue, hb, ⟨hstate.1, ?_, hstate.2⟩, ?_⟩
        · rw [hstate.1] at hempty
          exact hempty
        · rw [← h.fresh hstate.1 hstate.2]
          exact hb
    · left
      rw [hw] at hqueue
      refine ⟨hnil, hqueue.popBack_end, fun hno => ?_⟩
      rw [hunused hno] at hw
      exact absurd hw.symm (List.concat_ne_nil _ _)
  · left
    rw [List.concat_eq_append] at hx
    refine ⟨l, x, hx, ?_, ?_⟩
    · rintro rfl
      apply h.current
      rw [hx]
      exact List.mem_append_right _ List.mem_cons_self
    · rw [TypedText.stroke_of_ne (by decide), ← TypedText.pending_back hx]
      exact hqueue

theorem EditInv.back (h : EditInv buf s) (hok : Unused s → buf (TTY_COOK_BUF_SZ - 1) = 0) :
    EditInv buf ⟨⟨(ttyPopBack s.tty.queue).2, s.tty.cooked⟩, s.typed ++ ['\x08'.toUInt8],
      s.reads⟩ := by
  have hcooked := h.cooked.trans
    (@TypedText.length_lines_stroke (strokes s.typed) '\x08'.toUInt8)
  rcases h.back_cases with ⟨l, x, -, hx, hholds⟩ | ⟨hnil, hpop, -⟩ | ⟨-, -, hunused, hbuf⟩
  · rcases hholds.popBack hx with ⟨-, hholds', hb⟩
    have hlen := hholds.length_lt
    rw [List.length_append, List.length_singleton] at hlen
    exact h.key hholds' (hb.trans (if_neg (Nat.ne_of_lt hlen)).symm) hcooked
  · have hstroke : (strokes s.typed).stroke '\x08'.toUInt8 = strokes s.typed := by
      rw [TypedText.stroke_of_ne (by decide), TypedText.key_back_nil hnil]
    rw [hpop]
    refine h.key ?_ ?_ hcooked
    · rw [hstroke]
      exact h.queue
    · rw [hstroke]
      split
      · rename_i hfull
        exact h.before_of_full hfull
      · rfl
  · exact absurd (hok hunused) hbuf

/-- A read takes a line, whose `'\0'` is then before `front`. -/
theorem EditInv.read (h : EditInv buf s) (hread : ttyRead fuel count s.tty = some (got, t)) :
    EditInv buf ⟨t, s.typed, s.reads ++ [(count, got)]⟩ := by
  have hcooked := h.cooked
  have hpos := Nat.pos_of_ne_zero (ttyRead_cooked hread)
  have hline := List.getElem?_eq_getElem
    (show s.reads.length < (strokes s.typed).lines.length by omega)
  have hqueue := h.queue
  rw [TypedText.pending_read hline] at hqueue
  rcases ttyRead_cases hqueue (h.lines _ (List.getElem_mem _)) hread with ⟨-, hq, hcooked'⟩
  refine ⟨?_, ?_, fun _ => hq.before, ?_, h.lines, h.current⟩
  · rw [List.length_append, List.length_singleton]
    exact hq.holds
  · intro hr
    exact absurd hr (List.concat_ne_nil _ _)
  · simp only [List.length_append, List.length_singleton]
    omega

/-- Every step that meets `BackspaceOk` keeps the invariant. -/
theorem EditInv.step (h : EditInv buf s) (hok : BackspaceOk buf s e) (hst : TtyEditStep s e s') :
    EditInv buf s' := by
  cases hst with
  | cook hcook =>
      rcases ttyCook_cases hcook with ⟨rfl, rfl, q, q', hq, hq', rfl⟩ | ⟨rfl, rfl, rfl⟩ |
        ⟨hn, hb, rfl, q, hq, rfl⟩
      · exact h.enter hq hq'
      · exact h.back (hok _ rfl)
      · exact h.char hn hb hq
  | read hread => exact h.read hread

/-! ## What a Backspace does -/

theorem BackspaceSafe.refl (q : TtyQueue) : BackspaceSafe q q :=
  ⟨rfl, Or.inl rfl, Nat.le_refl _, fun _ h => h⟩

/-- A character at the end of the ring is no end of a line. -/
theorem backspaceSafe_of_popBack {q : TtyQueue} {w : List UInt8} (h : QueueHolds q (w ++ [ch]))
    (hch : ch ≠ 0) : BackspaceSafe q (ttyPopBack q).2 := by
  rcases h.popBack hch with ⟨hpop, hholds, -⟩
  have htext : q.text = w ++ [ch] := h.window
  have htext' : (ttyPopBack q).2.text = w := hholds.window
  constructor
  · rw [hpop]
  · right
    refine ⟨Ne.symm (mt h.eq_iff.1 (List.concat_ne_nil ch w)), ?_, ?_⟩
    · rw [(Ring.Holds.popBack h).1]
      exact hch
    · rw [hpop]
  · rw [htext, htext', List.length_append]
    exact Nat.le_add_right _ _
  · intro c hc
    rw [htext, List.prefix_concat_iff] at hc
    rw [htext']
    rcases hc with hc | hc
    · exact absurd (List.cons.inj (List.append_inj' hc rfl).2).1.symm hch
    · exact hc

/-- In an empty ring with another byte before `front`, `rear` goes back over `front`. -/
theorem not_backspaceSafe_of_before {q : TtyQueue} (h : QueueHolds q []) (hb : q.before ≠ 0) :
    ¬ BackspaceSafe q (ttyPopBack q).2 := by
  intro hsafe
  have hpop := h.popBack_nil
  rw [if_pos hb] at hpop
  have hrear := hsafe.rear
  rw [hpop.2] at hrear
  rcases hrear with he | ⟨hne, -⟩
  · -- `pred front = front` would need a ring of one cell
    have hfull := h.tail_eq_pred_iff.1 he.symm
    exact absurd hfull (by decide)
  · exact hne hpop.1

/-- Backspace is safe exactly if it does not find a byte of the uncleared buffer. -/
theorem EditInv.backspaceSafe_iff (h : EditInv buf s) :
    BackspaceSafe s.tty.queue (ttyPopBack s.tty.queue).2 ↔
      (Unused s → buf (TTY_COOK_BUF_SZ - 1) = 0) := by
  rcases h.back_cases with ⟨l, x, hcur, hx, hholds⟩ | ⟨-, hpop, hbuf⟩ | ⟨hnil, hb, hunused, hbuf⟩
  · refine iff_of_true (backspaceSafe_of_popBack hholds hx) ?_
    rintro ⟨-, hnone, -⟩
    rw [TypedText.pending, hcur, ← List.append_assoc] at hnone
    exact absurd hnone (List.concat_ne_nil _ _)
  · rw [hpop]
    exact iff_of_true (BackspaceSafe.refl _) hbuf
  · exact iff_of_false (not_backspaceSafe_of_before hnil hb) fun hok => hbuf (hok hunused)

theorem EditInv.keeps_iff_ok (h : EditInv buf s) (hst : TtyEditStep s e s') :
    BackspaceKeeps s e ↔ BackspaceOk buf s e := by
  constructor
  · rintro hkeep ret rfl hunused
    cases hst with
    | cook hcook =>
        have hsafe := hkeep _ _ rfl hcook
        rcases ttyCook_cases hcook with ⟨hn, -⟩ | ⟨-, -, rfl⟩ | ⟨-, hb, -⟩
        · exact absurd hn (by decide)
        · exact h.backspaceSafe_iff.1 hsafe hunused
        · exact absurd rfl hb
  · rintro hok ret t rfl hcook
    rcases ttyCook_cases hcook with ⟨hn, -⟩ | ⟨-, -, rfl⟩ | ⟨-, hb, -⟩
    · exact absurd hn (by decide)
    · exact h.backspaceSafe_iff.2 (hok ret rfl)
    · exact absurd rfl hb

end Steps

/-- In a run from `tty_init` with the buffer `buf`, every Backspace edits only the unfinished line
exactly if the last byte of `buf` is `'\0'` or no Backspace is typed on an unused ring. -/
theorem backspaceKeeps_iff {buf : ℕ → UInt8} {h : List (TtyInputState × TtyInputEvent)}
    {s : TtyInputState} (hr : TtyEditRun buf h s) :
    AllSteps BackspaceKeeps h ↔ AllSteps (BackspaceOk buf) h := by
  refine hr.allSteps_iff_allSteps (I := EditInv buf) ?_ ?_ ?_
  · rintro s rfl
    exact editInv_start buf
  · intro s e t hI hok hst
    exact hI.step hok hst
  · intro s e t hI hst
    exact hI.keeps_iff_ok hst

/-- In a buffer of bytes 255: the keys `h`, `j`, Backspace and Enter, a read, and a Backspace. -/
theorem backspaceKeeps_hi : ∃ h s, TtyEditRun (fun _ => 255) h s ∧ s.tty.queue.text = [] ∧
    AllSteps BackspaceKeeps h := by
  have hr : TtyEditRun (fun _ => 255) _ _ :=
    Run.snoc (Run.snoc (Run.snoc (Run.snoc (Run.snoc (Run.snoc (Run.start rfl)
      (show TtyEditStep _ (.cook 104 0) _ from .cook rfl))
      (show TtyEditStep _ (.cook 106 0) _ from .cook rfl))
      (show TtyEditStep _ (.cook 8 0) _ from .cook rfl))
      (show TtyEditStep _ (.cook 10 0) _ from .cook rfl))
      (show TtyEditStep _ (.read 2 [104, 10]) _ from
        .read (show ttyRead 3 2 _ = some (_, _) from rfl)))
      (show TtyEditStep _ (.cook 8 1) _ from .cook rfl)
  refine ⟨_, _, hr, rfl, (backspaceKeeps_iff hr).2 ?_⟩
  refine allSteps_cons.2 ⟨?_, allSteps_cons.2 ⟨nofun, allSteps_cons.2 ⟨?_, allSteps_cons.2 ⟨?_,
    allSteps_cons.2 ⟨?_, allSteps_cons.2 ⟨?_, allSteps_nil⟩⟩⟩⟩⟩⟩
  -- at the last Backspace a line was read, and at the other one `h` and `j` are there
  · rintro _ - ⟨hreads, -⟩
    cases hreads
  · rintro _ he
    cases he
  · rintro _ - ⟨-, hnone, -⟩
    cases hnone
  · rintro _ he
    cases he
  · rintro _ he
    cases he

/-- A Backspace is the first key, and the last byte of the buffer is 1. -/
theorem not_backspaceKeeps : ¬ ∀ (buf : ℕ → UInt8) (h : List (TtyInputState × TtyInputEvent))
    (s : TtyInputState), TtyEditRun buf h s → AllSteps BackspaceKeeps h := by
  intro hall
  have hr : TtyEditRun (fun _ => 1) _ _ :=
    Run.snoc (Run.start rfl) (show TtyEditStep _ (.cook '\x08'.toUInt8 0) _ from .cook rfl)
  have hsafe := (allSteps_cons.1 (hall _ _ _ hr)).1 _ _ rfl rfl
  -- `rear` goes from 0 to 1023
  rcases hsafe.rear with he | ⟨hne, -⟩
  · cases he
  · exact hne rfl

end OsLab

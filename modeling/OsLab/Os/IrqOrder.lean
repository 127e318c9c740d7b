import OsLab.Os.Irq

/-! # The handlers run once each, in order

`Registered rs nodes σ`: `irq_list` consists of `nodes`, which hold the stable sort
of the registrations `rs`. Every `on_irq` extends it, and `trap` calls what it says.
-/

namespace OsLab

namespace Os

open PtrList StableSort

variable {α γ ω : Type*}

/-- `irq_list` is the stable sort of `rs`. -/
structure Registered (rs : List (Request γ ω)) (nodes : List α) (σ : IrqSys α γ ω) : Prop where
  chain : Chain σ.next σ.irqList nodes
  stable : IsStableSort Request.key rs (nodes.map σ.request)

/-! ## `on_irq` -/

namespace IrqSys

variable [DecidableEq α] (σ : IrqSys α γ ω) (p : α)

@[simp] theorem write_irqList (irq : Irq α γ ω) : (σ.write p irq).irqList = σ.irqList := rfl
@[simp] theorem setNext_irqList (q : Option α) : (σ.setNext p q).irqList = σ.irqList := rfl

@[simp] theorem write_request_self (irq : Irq α γ ω) :
    (σ.write p irq).request p = irq.toRequest := by simp [request, write]

@[simp] theorem write_next_self (irq : Irq α γ ω) : (σ.write p irq).next p = irq.next := by
  simp [IrqSys.next, write]

theorem write_irq_of_ne {irq : Irq α γ ω} {a : α} (ha : a ≠ p) :
    (σ.write p irq).irq a = σ.irq a := Function.update_of_ne ha _ _

theorem setNext_next (q : Option α) : (σ.setNext p q).next = Function.update σ.next p q := by
  funext a
  by_cases ha : a = p
  · subst ha
    simp [IrqSys.next, setNext, write]
  · simp [IrqSys.next, setNext, write, Function.update_of_ne ha]

@[simp] theorem setNext_request (q : Option α) : (σ.setNext p q).request = σ.request := by
  funext a
  by_cases ha : a = p
  · subst ha
    simp [request, setNext, write]
  · simp [request, setNext, write, Function.update_of_ne ha]

theorem setNext_irq_of_ne {q : Option α} {a : α} (ha : a ≠ p) : (σ.setNext p q).irq a = σ.irq a :=
  σ.write_irq_of_ne p ha

end IrqSys

section Insert

variable {σ : IrqSys α γ ω} {new : α}

/-- The key that a node was registered with. -/
def IrqSys.key (σ : IrqSys α γ ω) (p : α) : ℤ := (σ.request p).key

theorem seq_lt_iff {p q : α} : (σ.irq p).seq < (σ.irq q).seq ↔ σ.key p < σ.key q :=
  Int32.lt_iff_toInt_lt

variable [DecidableEq α]

/-- Only links change, of nodes in `nodes` and of the new one. -/
structure Relinks (nodes : List α) (new : α) (σ σ' : IrqSys α γ ω) : Prop where
  irqList : σ'.irqList = σ.irqList
  request : σ'.request = σ.request
  frame : ∀ p, p ∉ nodes → p ≠ new → σ'.irq p = σ.irq p

/-- The loop of `on_irq` inserts the new node somewhere behind `i`. -/
theorem insertIrq_spec {i : α} {rest : List α} {fuel : ℕ}
    (hchain : Chain σ.next (some i) (i :: rest)) (hnew : new ∉ i :: rest)
    (hnull : σ.next new = none) (hfuel : rest.length < fuel) :
    ∃ σ', insertIrq new fuel i σ = some σ' ∧ Relinks (i :: rest) new σ σ' ∧
      Chain σ'.next (some i) (i :: insertAfter σ.key new rest) := by
  obtain ⟨fuel, rfl⟩ := Nat.exists_eq_succ_of_ne_zero (Nat.ne_zero_of_lt hfuel)
  induction rest generalizing i fuel with
  | nil =>
      have hi : (σ.irq i).next = none := chain_nil.1 (chain_cons.1 hchain).2
      refine ⟨σ.setNext i (some new), ?_, ⟨rfl, σ.setNext_request i _, ?_⟩, ?_⟩
      · rw [insertIrq, hi]
      · intro p hp _
        exact σ.setNext_irq_of_ne i fun he : p = i => hp (he ▸ List.mem_cons_self)
      · have hself : Function.update σ.next new none = σ.next := by
          rw [← hnull]
          exact Function.update_eq_self _ _
        have hins := hchain.insertNext hnew
        rw [show σ.next i = none from hi, hself] at hins
        rw [σ.setNext_next]
        exact hins
  | cons n t ih =>
      rcases chain_cons.1 hchain with ⟨-, htail⟩
      have hi : σ.next i = some n := (chain_cons.1 htail).1
      have hloop : insertIrq new (fuel + 1) i σ =
          if (σ.irq new).seq < (σ.irq n).seq then
            some ((σ.setNext new (some n)).setNext i (some new))
          else insertIrq new fuel n σ := by
        rw [insertIrq, show (σ.irq i).next = some n from hi]
      rw [hloop, insertAfter]
      by_cases hlt : σ.key new < σ.key n
      · rw [if_pos (seq_lt_iff.2 hlt), if_pos hlt]
        refine ⟨_, rfl, ⟨rfl, ?_, ?_⟩, ?_⟩
        · rw [IrqSys.setNext_request, IrqSys.setNext_request]
        · intro p hp hpn
          rw [IrqSys.setNext_irq_of_ne _ _ fun he : p = i => hp (he ▸ List.mem_cons_self),
            IrqSys.setNext_irq_of_ne _ _ hpn]
        · have hins := hchain.insertNext hnew
          rw [hi] at hins
          rw [IrqSys.setNext_next, IrqSys.setNext_next]
          exact hins
      · rw [if_neg fun h => hlt (seq_lt_iff.1 h), if_neg hlt]
        have hn : Chain σ.next (some n) (n :: t) := by rwa [← hi]
        have hnew' : new ∉ n :: t := fun hm => hnew (List.mem_cons_of_mem _ hm)
        have hfuel' : t.length < fuel := Nat.lt_of_succ_lt_succ hfuel
        obtain ⟨fuel, rfl⟩ := Nat.exists_eq_succ_of_ne_zero (Nat.ne_zero_of_lt hfuel')
        obtain ⟨σ', hrun, hre, hch⟩ := ih hn hnew' fuel hfuel'
        have hni : i ∉ n :: t := (List.nodup_cons.1 hchain.nodup).1
        have hirq : σ'.irq i = σ.irq i :=
          hre.frame i hni fun he : i = new => hnew (he ▸ List.mem_cons_self)
        refine ⟨σ', hrun, ⟨hre.irqList, hre.request, ?_⟩, ?_⟩
        · intro p hp hpn
          exact hre.frame p (fun hm => hp (List.mem_cons_of_mem _ hm)) hpn
        · refine .cons ?_
          rw [show σ'.next i = some n from (congrArg Irq.next hirq).trans hi]
          exact hch

/-- The new node gets its place in the list. -/
theorem linkIrq_spec {nodes : List α} {fuel : ℕ} (hchain : Chain σ.next σ.irqList nodes)
    (hnew : new ∉ nodes) (hnull : σ.next new = none) (hfuel : nodes.length ≤ fuel) :
    ∃ σ', linkIrq fuel new σ = some σ' ∧ σ'.request = σ.request ∧
      Chain σ'.next σ'.irqList (insertAfter σ.key new nodes) := by
  cases nodes with
  | nil =>
      refine ⟨{ σ with irqList := some new }, ?_, rfl, .cons (chain_nil.2 hnull)⟩
      rw [linkIrq, chain_nil.1 hchain]
  | cons head rest =>
      have hhead := (chain_cons.1 hchain).1
      have hlink : linkIrq fuel new σ =
          if (σ.irq new).seq < (σ.irq head).seq then
            some { σ.setNext new (some head) with irqList := some new }
          else insertIrq new fuel head σ := by
        rw [linkIrq, hhead]
      rw [hhead] at hchain
      rw [hlink, insertAfter]
      by_cases hlt : σ.key new < σ.key head
      · rw [if_pos (seq_lt_iff.2 hlt), if_pos hlt]
        refine ⟨_, rfl, σ.setNext_request new _, ?_⟩
        have hpush := hchain.push hnew
        rw [← σ.setNext_next] at hpush
        exact hpush
      · rw [if_neg fun h => hlt (seq_lt_iff.1 h), if_neg hlt]
        have hfuel' : rest.length < fuel := hfuel
        obtain ⟨σ', hrun, hre, hch⟩ := insertIrq_spec hchain hnew hnull hfuel'
        refine ⟨σ', hrun, hre.request, ?_⟩
        rw [hre.irqList, hhead]
        exact hch

/-- A call of `on_irq` adds its registration. -/
theorem Registered.onIrq {rs : List (Request γ ω)} {nodes : List α} {fuel : ℕ}
    (h : Registered rs nodes σ) (hnew : new ∉ nodes) (hfuel : nodes.length ≤ fuel)
    (r : Request γ ω) :
    ∃ nodes' σ', onIrq fuel new r.seq r.event r.handler σ = some σ' ∧
      nodes'.Perm (new :: nodes) ∧ Registered (rs ++ [r]) nodes' σ' := by
  obtain ⟨σ₁, hσ₁⟩ : ∃ σ₁, σ₁ = σ.write new ⟨r, none⟩ := ⟨_, rfl⟩
  have hold : ∀ p ∈ nodes, σ₁.irq p = σ.irq p := by
    rintro p hp
    rw [hσ₁]
    exact σ.write_irq_of_ne new fun he : p = new => hnew (he ▸ hp)
  have hself : σ₁.request new = r := by rw [hσ₁, IrqSys.write_request_self]
  have hnull : σ₁.next new = none := by rw [hσ₁, IrqSys.write_next_self]
  have hchain : Chain σ₁.next σ₁.irqList nodes := by
    rw [hσ₁, IrqSys.write_irqList, ← hσ₁]
    exact h.chain.congr fun p hp => congrArg Irq.next (hold p hp)
  obtain ⟨σ', hrun, hre, hch⟩ := linkIrq_spec hchain hnew hnull hfuel
  rw [hσ₁] at hrun
  refine ⟨_, σ', hrun, insertAfter_perm _ _, hch, ?_⟩
  have hreq : nodes.map σ₁.request = nodes.map σ.request :=
    List.map_congr_left fun p hp => congrArg Irq.toRequest (hold p hp)
  have hmap : (insertAfter σ₁.key new nodes).map σ₁.request =
      insertAfter Request.key (σ₁.request new) (nodes.map σ₁.request) := map_insertAfter new nodes
  rw [hre, hmap, hself, hreq]
  exact h.stable.insertAfter r

/-- Any sequence of registrations with fresh nodes. -/
theorem Registered.registerAll {rs : List (Request γ ω)} {nodes : List α} {fuel : ℕ}
    (h : Registered rs nodes σ) {regs : List (α × Request γ ω)}
    (hfresh : (regs.map Prod.fst).Nodup) (hnew : ∀ p ∈ regs.map Prod.fst, p ∉ nodes)
    (hfuel : nodes.length + regs.length ≤ fuel) :
    ∃ nodes' σ', registerAll fuel regs σ = some σ' ∧
      nodes'.Perm (regs.map Prod.fst ++ nodes) ∧
      Registered (rs ++ regs.map Prod.snd) nodes' σ' := by
  induction regs generalizing rs nodes σ with
  | nil => exact ⟨nodes, σ, rfl, List.Perm.refl _, by simpa using h⟩
  | cons reg regs ih =>
      rcases reg with ⟨p, r⟩
      rw [List.map_cons, List.nodup_cons] at hfresh
      rw [List.length_cons] at hfuel
      obtain ⟨nodes₁, σ₁, hrun, hperm, hreg⟩ :=
        h.onIrq (hnew p List.mem_cons_self) (by omega : nodes.length ≤ fuel) r
      have hlen := hperm.length_eq
      rw [List.length_cons] at hlen
      obtain ⟨nodes', σ', hrun', hperm', hreg'⟩ := ih hreg hfresh.2 (by
        intro q hq hmem
        rcases List.mem_cons.1 (hperm.mem_iff.1 hmem) with rfl | hmem
        · exact hfresh.1 hq
        · exact hnew q (List.mem_cons_of_mem _ hq) hmem) (by omega)
      refine ⟨nodes', σ', ?_, ?_, ?_⟩
      · rw [Os.registerAll, hrun]
        exact hrun'
      · exact hperm'.trans ((hperm.append_left _).trans List.perm_middle)
      · rwa [List.append_assoc] at hreg'

end Insert

/-! ## `trap` -/

theorem lastAnswer_append (as bs : List (Option γ)) :
    lastAnswer (as ++ bs) = (lastAnswer bs).or (lastAnswer as) := by
  unfold lastAnswer
  rw [List.reduceOption_append, List.getLast?_append]

theorem lastAnswer_singleton (a : Option γ) : lastAnswer [a] = a := by
  cases a <;> rfl

theorem lastAnswer_cons (a : Option γ) (as : List (Option γ)) :
    lastAnswer (a :: as) = (lastAnswer as).or a := by
  rw [← List.singleton_append, lastAnswer_append, lastAnswer_singleton]

/-- An answer that is not `NULL` hides all those before it. -/
theorem lastAnswer_middle (as bs : List (Option γ)) (c : γ) :
    lastAnswer (as ++ some c :: bs) = (lastAnswer bs).or (some c) := by
  rw [lastAnswer_append, lastAnswer_cons]
  cases lastAnswer bs <;> rfl

section Trap

variable {ev : Event} {ctx : Option γ}

theorem callAll_append (rs rs' : List (Request γ ω)) (w : ω) :
    callAll ev ctx (rs ++ rs') w =
      ((callAll ev ctx rs w).1 ++ (callAll ev ctx rs' (callAll ev ctx rs w).2).1,
        (callAll ev ctx rs' (callAll ev ctx rs w).2).2) := by
  induction rs generalizing w with
  | nil => rfl
  | cons r rs ih => rw [List.cons_append, callAll, callAll, ih]; rfl

theorem callAll_middle (rs rs' : List (Request γ ω)) (r : Request γ ω) (w : ω) :
    (callAll ev ctx (rs ++ r :: rs') w).1 =
      (callAll ev ctx rs w).1 ++ (r.handler ev ctx (callAll ev ctx rs w).2).1 ::
        (callAll ev ctx rs' (r.handler ev ctx (callAll ev ctx rs w).2).2).1 := by
  rw [callAll_append, callAll]

/-- The loop of `trap` calls the handlers that are wanted, one after the other. -/
theorem trapFrom_eq {σ : IrqSys α γ ω} {p : Option α} {nodes : List α} {fuel : ℕ}
    (hchain : Chain σ.next p nodes) (hfuel : nodes.length ≤ fuel) (nextCtx : Option γ) (w : ω) :
    let r := callAll ev ctx ((nodes.map σ.request).filter fun r => decide (Wanted ev r)) w
    trapFrom ev ctx σ fuel p nextCtx w = some (lastAnswer (nextCtx :: r.1), r.2) := by
  induction nodes generalizing p fuel nextCtx w with
  | nil =>
      rw [chain_nil.1 hchain]
      cases fuel <;> cases nextCtx <;> rfl
  | cons req nodes ih =>
      rcases chain_cons.1 hchain with ⟨rfl, htail⟩
      obtain ⟨fuel, rfl⟩ := Nat.exists_eq_succ_of_ne_zero (Nat.ne_zero_of_lt hfuel)
      have hfuel' : nodes.length ≤ fuel := Nat.le_of_succ_le_succ hfuel
      have hrest := fun nextCtx w => ih htail hfuel' nextCtx w
      rw [List.map_cons, trapFrom]
      by_cases hw : Wanted ev (σ.request req)
      · rw [if_pos (show Wanted ev (σ.irq req).toRequest from hw),
          List.filter_cons_of_pos (by simpa using hw)]
        refine (hrest _ _).trans ?_
        simp only [callAll, lastAnswer_cons]
        -- the answer of this handler counts unless it is `NULL`
        cases hans : ((σ.irq req).handler ev ctx w).1 with
        | none => simp [IrqSys.request, hans]
        | some c => simp [IrqSys.request, hans]
      · rw [if_neg (show ¬ Wanted ev (σ.irq req).toRequest from hw),
          List.filter_cons_of_neg (by simpa using hw)]
        exact hrest _ _

/-- On the registrations `rs`, `trap` calls exactly those that `called` lists. -/
theorem Registered.trap_eq {rs : List (Request γ ω)} {nodes : List α} {σ : IrqSys α γ ω} {fuel : ℕ}
    (h : Registered rs nodes σ) (hfuel : nodes.length ≤ fuel) (w : ω) :
    let r := callAll ev ctx (called ev rs) w
    trap fuel ev ctx σ w = some (lastAnswer r.1, r.2) := by
  have hloop := @trapFrom_eq _ _ _ ev ctx _ _ _ _ h.chain hfuel none w
  rw [isStableSort_iff.1 h.stable] at hloop
  have hnull : ∀ as : List (Option γ), lastAnswer (none :: as) = lastAnswer as := by
    intro as
    rw [lastAnswer_cons, Option.or_none]
  simp only [hnull] at hloop
  unfold trap
  split
  · rename_i hempty
    -- the empty list is left at once, and nothing is called
    rw [hempty] at hloop
    cases fuel <;> exact hloop
  · exact hloop

end Trap

/-! ## The first and the last handler -/

/-- `kmt_context_save` as it is registered. -/
def saveRequest (save : Handler γ ω) : Request γ ω := ⟨SEQ_MIN, EVENT_NULL, save⟩

/-- `kmt_schedule` as it is registered. -/
def scheduleRequest (schedule : Handler γ ω) : Request γ ω := ⟨SEQ_MAX, EVENT_NULL, schedule⟩

theorem key_saveRequest_le (save : Handler γ ω) (r : Request γ ω) :
    (saveRequest save).key ≤ r.key :=
  r.seq.minValue_le_toInt

theorem key_le_scheduleRequest (schedule : Handler γ ω) (r : Request γ ω) :
    r.key ≤ (scheduleRequest schedule).key :=
  r.seq.toInt_le

/-- A first registration with `SEQ_MIN` stays the first. -/
theorem mergeSort_saveRequest (save : Handler γ ω) (rs : List (Request γ ω)) :
    (saveRequest save :: rs).mergeSort (byKey Request.key) =
      saveRequest save :: rs.mergeSort (byKey Request.key) := by
  have hrest : IsStableSort Request.key rs _ := isStableSort_mergeSort rs
  refine (isStableSort_iff.1 ⟨?_, fun k => ?_⟩).symm
  · exact List.pairwise_cons.2 ⟨fun r _ => key_saveRequest_le save r, hrest.sorted⟩
  · rw [List.filter_cons, List.filter_cons, hrest.ties]

/-- Behind a registration with `SEQ_MAX` there are only others with `SEQ_MAX`. -/
theorem exists_split_schedule {schedule : Handler γ ω} {rs : List (Request γ ω)}
    (hmem : scheduleRequest schedule ∈ rs) :
    ∃ before after, rs.mergeSort (byKey Request.key) =
      before ++ scheduleRequest schedule :: after ∧ ∀ r ∈ after, r.seq = SEQ_MAX := by
  have hsort : IsStableSort Request.key rs _ := isStableSort_mergeSort rs
  rcases List.append_of_mem (hsort.mem_iff.2 hmem) with ⟨before, after, heq⟩
  refine ⟨before, after, heq, fun r hr => ?_⟩
  have hsorted := hsort.sorted
  rw [heq] at hsorted
  have hle := (List.pairwise_cons.1 (List.pairwise_append.1 hsorted).2.1).1 r hr
  exact Int32.toInt_inj.1 (le_antisymm (key_le_scheduleRequest schedule r) hle)

/-- What a trap does when `kmt_context_save` was registered first and `kmt_schedule` somewhere. -/
structure KmtOrder (fuel : ℕ) (ev : Event) (σ : IrqSys α γ ω) (rs : List (Request γ ω))
    (save schedule : Handler γ ω) (before after : List (Request γ ω)) : Prop where
  called : called ev rs = saveRequest save :: before ++ scheduleRequest schedule :: after
  /-- everything strictly between runs before `kmt_schedule` -/
  between : ∀ r ∈ rs, Wanted ev r → SEQ_MIN < r.seq → r.seq < SEQ_MAX → r ∈ before
  behind : ∀ r ∈ after, r.seq = SEQ_MAX
  /-- what `kmt_schedule` answers counts, if it is not `NULL`, unless a later one answers too -/
  overrides : ∀ ctx w c,
    let r := callAll ev ctx (saveRequest save :: before) w
    let s := schedule ev ctx r.2
    s.1 = some c →
      ∃ w', trap fuel ev ctx σ w = some ((lastAnswer (callAll ev ctx after s.2).1).or (some c), w')

theorem Registered.kmtOrder {rs : List (Request γ ω)} {nodes : List α} {σ : IrqSys α γ ω}
    {fuel : ℕ} {save schedule : Handler γ ω}
    (h : Registered (saveRequest save :: rs) nodes σ) (hfuel : nodes.length ≤ fuel)
    (hmem : scheduleRequest schedule ∈ rs) (ev : Event) :
    ∃ before after, KmtOrder fuel ev σ (saveRequest save :: rs) save schedule before after := by
  rcases exists_split_schedule hmem with ⟨before, after, heq, hafter⟩
  have hsave : Wanted ev (saveRequest save) := Or.inl rfl
  have hsched : Wanted ev (scheduleRequest schedule) := Or.inl rfl
  have hcalled : called ev (saveRequest save :: rs) =
      saveRequest save :: before.filter (fun r => decide (Wanted ev r)) ++
        scheduleRequest schedule :: after.filter fun r => decide (Wanted ev r) := by
    rw [Os.called, mergeSort_saveRequest, heq, List.filter_cons_of_pos (by simpa using hsave),
      List.filter_append, List.filter_cons_of_pos (by simpa using hsched), List.cons_append]
  refine ⟨_, _, hcalled, fun r hr hw hmin hmax => ?_, fun r hr => ?_, fun ctx w c hc => ?_⟩
  · have hmem' : r ∈ called ev (saveRequest save :: rs) := by
      refine List.mem_filter.2 ⟨(isStableSort_mergeSort _).mem_iff.2 hr, by simpa using hw⟩
    rw [hcalled] at hmem'
    rcases List.mem_append.1 hmem' with hfront | hback
    · rcases List.mem_cons.1 hfront with rfl | hbefore
      · exact absurd hmin (Int32.lt_irrefl)
      · exact hbefore
    · rcases List.mem_cons.1 hback with rfl | hlater
      · exact absurd hmax (Int32.lt_irrefl)
      · rw [hafter r (List.mem_filter.1 hlater).1] at hmax
        exact absurd hmax (Int32.lt_irrefl)
  · exact hafter r (List.mem_filter.1 hr).1
  · refine ⟨_, (h.trap_eq hfuel w).trans (congrArg some (Prod.ext ?_ rfl))⟩
    have hans : ((scheduleRequest schedule).handler ev ctx
      (callAll ev ctx (saveRequest save :: before.filter fun r => decide (Wanted ev r)) w).2).1 =
        some c := hc
    rw [hcalled, callAll_middle, hans]
    exact lastAnswer_middle _ _ _

/-! ## Registrations and traps -/

/-- Whatever is registered in whatever order, `irq_list` is the stable sort of the registrations,
`trap` calls exactly those it should and returns the last answer that is not `NULL`, and
`kmt_context_save` and `kmt_schedule` come first and last. -/
theorem irqs_in_order [DecidableEq α] {regs : List (α × Request γ ω)}
    (hfresh : (regs.map Prod.fst).Nodup) (mem : α → Irq α γ ω) {fuel : ℕ}
    (hfuel : regs.length ≤ fuel) :
    ∃ nodes σ, registerAll fuel regs ⟨none, mem⟩ = some σ ∧
      Chain σ.next σ.irqList nodes ∧ nodes.Perm (regs.map Prod.fst) ∧
      nodes.map σ.request = (regs.map Prod.snd).mergeSort (byKey Request.key) ∧
      (∀ ev ctx w,
        let r := callAll ev ctx (called ev (regs.map Prod.snd)) w
        trap fuel ev ctx σ w = some (lastAnswer r.1, r.2)) ∧
      ∀ save schedule rs, regs.map Prod.snd = saveRequest save :: rs →
        scheduleRequest schedule ∈ rs → ∀ ev, ∃ before after,
          KmtOrder fuel ev σ (regs.map Prod.snd) save schedule before after := by
  have hstart : Registered ([] : List (Request γ ω)) [] (⟨none, mem⟩ : IrqSys α γ ω) :=
    ⟨.nil, IsStableSort.nil⟩
  obtain ⟨nodes, σ, hrun, hperm, hreg⟩ := hstart.registerAll hfresh
    (fun _ _ => List.not_mem_nil) (by simpa using hfuel)
  rw [List.append_nil] at hperm
  rw [List.nil_append] at hreg
  have hlen : nodes.length ≤ fuel := by
    rw [hperm.length_eq, List.length_map]
    exact hfuel
  refine ⟨nodes, σ, hrun, hreg.chain, hperm, isStableSort_iff.1 hreg.stable, ?_, ?_⟩
  · intro ev ctx w
    exact hreg.trap_eq hlen w
  · intro save schedule rs hregs hmem ev
    rw [hregs] at hreg ⊢
    exact hreg.kmtOrder hlen hmem ev

/-- A handler that notes that it ran, on what it works on. -/
def noting (k : ℕ) (answer : Option ℕ) : Handler ℕ (List ℕ) := fun _ _ w => (answer, w ++ [k])

/-- What `kmt_init` registers, and a handler of the timer. -/
def kmtRequests : List (ℕ × Request ℕ (List ℕ)) :=
  [(10, saveRequest (noting 0 none)), (20, scheduleRequest (noting 1 (some 5))),
    (30, ⟨0, EventType.irqTimer.toInt32, noting 2 (some 4)⟩)]

/-- The handler of the timer runs between the other two, and its answer is overridden. -/
theorem irqs_in_order_kmt :
    ∃ nodes σ,
      registerAll 3 kmtRequests ⟨none, fun _ => ⟨saveRequest (noting 9 none), none⟩⟩ = some σ ∧
      nodes.Perm [10, 20, 30] ∧ Chain σ.next σ.irqList nodes ∧
      trap 3 ⟨.irqTimer, 0, 0, 0⟩ (some 7) σ [] = some (some 5, [0, 2, 1]) := by
  obtain ⟨nodes, σ, hrun, hchain, hperm, -⟩ := @irqs_in_order _ _ _ _ kmtRequests
    (by decide) (fun _ => ⟨saveRequest (noting 9 none), none⟩) 3 (Nat.le_refl 3)
  refine ⟨nodes, σ, hrun, hperm, hchain, ?_⟩
  have hall : (registerAll 3 kmtRequests ⟨none, fun _ => ⟨saveRequest (noting 9 none), none⟩⟩).bind
      (fun σ => trap 3 ⟨.irqTimer, 0, 0, 0⟩ (some 7) σ []) = some (some 5, [0, 2, 1]) := by rfl
  rw [hrun] at hall
  exact hall

end Os

end OsLab

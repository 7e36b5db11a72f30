import Cegar.Proofs.Encoding

/-!
# Path formulas are exact

The path formula of a sequence of edges, whatever numbering it starts from, describes what the edges
do one after the other: its models, read at the first and at the last numbering, are the pairs of
stores that the edges lead from and to.

* **`PathFormula.extend_numbers`**: a name has the index of one more write for each time that an
  edge writes it;
* **`PathFormula.extend_total`**: along an edge that writes to variables there is a path formula, as
  long as there are indices for its writes;
* **`PathFormula.along_forward`**, **`PathFormula.along_backward`**: the two directions, by
  induction on the edges from the lemmas about one edge;
* **`PathFormula.val_branch_along`**: what a model says about the branches taken.
-/

namespace Cegar

/-! ## What edges write and do -/

namespace Statement

/-- What a statement writes to. -/
def targets : Statement → List Expr
  | .declare target _ | .assign target _ | .ret (some (target, _)) => [target]
  | .call bindings => bindings.map (·.1)
  | .blank | .callToReturn | .ret none | .assume _ _ | .unknown _ => []

/-- A statement with a meaning that writes to variables only. -/
structure Encodable (s : Statement) : Prop where
  known : ∀ description, s ≠ .unknown description
  targets : ∀ e ∈ s.targets, ∃ v, e = .var v

theorem targets_subset_exprs (s : Statement) : s.targets ⊆ s.exprs := by
  intro e he
  unfold targets at he
  split at he
  · next target initial => cases initial <;> simp_all [exprs]
  · simp_all [exprs]
  · simp_all [exprs]
  · obtain ⟨b, hb, rfl⟩ := List.mem_map.1 he
    exact List.mem_flatMap.2 ⟨b, hb, by simp⟩
  all_goals cases he

/-- An assignment writes to the targets of its bindings. -/
theorem targets_of_bindings? {s : Statement} {bs : List (Expr × Expr)}
    (h : s.bindings? = some bs) : s.targets = bs.map (·.1) := by
  unfold bindings? at h
  split at h <;> cases h <;> rfl

end Statement

/-- The name of a variable. -/
def Expr.name? : Expr → Option String
  | .var v => some v.name
  | _ => none

theorem Expr.names_cons {b : Expr × Expr} {bs : List (Expr × Expr)} {v : Var} (h : b.1 = .var v) :
    ((b :: bs).map (·.1)).filterMap name? = [v.name] ++ (bs.map (·.1)).filterMap name? := by
  simp [h, name?]

namespace Edge

/-- The names that an edge writes, one for each write. An assumption writes the branch variable of
the location that it leaves. -/
def written (edge : Edge) : List String :=
  match edge.statement with
  | .assume _ _ => [Var.branchName edge.source.idx]
  | s => s.targets.filterMap Expr.name?

variable {edge : Edge}

theorem written_eq (h : ∀ condition truth, edge.statement ≠ .assume condition truth) :
    edge.written = edge.statement.targets.filterMap Expr.name? := by
  unfold written
  split
  · next condition truth hs => exact absurd hs (h condition truth)
  · rfl

theorem written_of_bindings? {bs : List (Expr × Expr)} (h : edge.statement.bindings? = some bs) :
    edge.written = (bs.map (·.1)).filterMap Expr.name? := by
  have hne : ∀ condition truth, edge.statement ≠ .assume condition truth := by
    intro condition truth hs
    rw [hs] at h
    cases h
  rw [written_eq hne, Statement.targets_of_bindings? h]

/-- What the edges do, one after the other. -/
def Runs : List Edge → Store → Store → Prop
  | [], σ, σ' => σ' = σ
  | edge :: es, σ, σ' => ∃ τ, edge.statement.Step σ τ ∧ Runs es τ σ'

/-- The branches that the edges take at a location, in their order. -/
def assumptionsAt (l : Location) : List Edge → List Bool
  | [] => []
  | edge :: es =>
    match edge.statement with
    | .assume _ truth => if edge.source = l then truth :: assumptionsAt l es else assumptionsAt l es
    | _ => assumptionsAt l es

end Edge

/-- Different locations have different branch variables. -/
theorem Var.branchName_inj {l k : Nat} : Var.branchName l = Var.branchName k ↔ l = k := by
  refine ⟨fun h => ?_, fun h => by rw [h]⟩
  have hrepr : (Nat.repr l).toList = (Nat.repr k).toList := by
    have hlist := congrArg String.toList h
    simp only [branchName, String.toList_append] at hlist
    exact List.append_cancel_left hlist
  simp only [Nat.repr_eq_ofList_toDigits, String.toList_ofList] at hrepr
  have hnumber := congrArg (fun digits => Nat.ofDigitChars 10 digits 0) hrepr
  simpa [Nat.ofDigitChars_toDigits] using hnumber

/-! ## Indices -/

namespace SsaMap

variable {m m' : SsaMap} {name : String} {ty : Ty} {i : UInt32}

/-- A fresh version is one more write of its name, and of no other. -/
theorem index_of_fresh (h : m.fresh name ty = .ok (m', i)) (n : String) :
    m'.index n = m.index n + UInt32.ofNat ([name].count n) := by
  unfold fresh at h
  split at h
  · next r hr =>
    cases h
    unfold fresh? at hr
    split at hr
    · cases hr
    · cases hr
      by_cases hn : n = name
      · simp [index, hn]
      · simp [index, Std.ExtTreeMap.getElem?_insert, Ne.symm hn]
  · cases h

/-- There is an index for one more write. -/
theorem exists_fresh (ty : Ty) (h : (m.index name).toNat + 1 < UInt32.size) :
    ∃ r, m.fresh name ty = .ok r := by
  have hne : m.index name + 1 ≠ 0 := by
    intro h0
    have := congrArg UInt32.toNat h0
    simp only [UInt32.toNat_add, UInt32.reduceToNat] at this
    simp only [UInt32.size] at h
    omega
  exact ⟨_, by simp only [fresh, fresh?, hne, if_false]; rfl⟩

end SsaMap

namespace PathFormula

variable {P : Var → Prop} {p q : PathFormula} {V : Store} {σ σ' : Store}

/-- A name has the index of one more write for each time that it is listed. -/
def Numbers (p : PathFormula) (names : List String) (q : PathFormula) : Prop :=
  ∀ name, q.ssa.index name = p.ssa.index name + UInt32.ofNat (names.count name)

/-- There are indices for writes to all the names. -/
def Room (p : PathFormula) (names : List String) : Prop :=
  ∀ name, (p.ssa.index name).toNat + names.count name < UInt32.size

theorem Numbers.refl (p : PathFormula) : p.Numbers [] p := by
  intro name
  simp

/-- Writes one after the other. -/
theorem Numbers.trans {r : PathFormula} {names names' : List String} (h : p.Numbers names q)
    (h' : q.Numbers names' r) : p.Numbers (names ++ names') r := by
  intro name
  rw [h' name, h name, List.count_append, UInt32.ofNat_add, UInt32.add_assoc]

/-- Room for all writes is room for the first ones. -/
theorem Room.head {names names' : List String} (h : p.Room (names ++ names')) : p.Room names := by
  intro name
  have hname := h name
  rw [List.count_append] at hname
  omega

/-- After the first writes there is room for the rest. -/
theorem Room.tail {names names' : List String} (h : p.Room (names ++ names'))
    (hq : p.Numbers names q) : q.Room names' := by
  intro name
  have hname := h name
  rw [List.count_append] at hname
  rw [hq name, UInt32.toNat_add, UInt32.toNat_ofNat']
  omega

/-- A write is one write of its name. -/
theorem write_numbers {v : Var} {value : Option Expr}
    (h : p.write (.var v) value = .ok (.ok q)) : p.Numbers [v.name] q := by
  obtain ⟨_, m, i, ⟨⟩, hf, rfl, -⟩ := write_ok h
  exact SsaMap.index_of_fresh hf

/-- Each binding is one write of its name. -/
theorem bind_numbers {read : SsaMap} {bs : List (Expr × Expr)}
    (h : bind read p bs = .ok (.ok q)) :
    p.Numbers ((bs.map (·.1)).filterMap Expr.name?) q := by
  induction bs generalizing p with
  | nil =>
    cases attempt_pure_ok.1 h
    exact .refl _
  | cons b bs ih =>
    obtain ⟨v, r, hv, hw, h⟩ := bind_cons_ok h
    rw [Expr.names_cons hv]
    exact (write_numbers hw).trans (ih h)

/-- Each name has the index of one more write for each time that the edge writes it. -/
theorem extend_numbers {edge : Edge} {e : EdgeId}
    (h : p.extend edge.source e edge.statement = .ok (.ok q)) : p.Numbers edge.written q := by
  obtain ⟨bs, hbs, hq⟩ | ⟨v, hs, hq⟩ | ⟨condition, truth, hs, hq⟩ := extend_ok h
  · rw [Edge.written_of_bindings? hbs]
    exact bind_numbers hq
  · have hwritten : edge.written = [v.name] := by
      simp [Edge.written, hs, Statement.targets, Expr.name?]
    rw [hwritten]
    exact write_numbers hq
  · have hwritten : edge.written = [Var.branchName edge.source.idx] := by simp [Edge.written, hs]
    obtain ⟨m, i, hf, rfl⟩ := branch_ok hq
    rw [hwritten]
    exact SsaMap.index_of_fresh hf

/-! ## There is a path formula -/

/-- A write to a variable succeeds if there is an index for it. -/
theorem write_total {v : Var} (value : Option Expr) (h : p.Room [v.name]) :
    ∃ q, p.write (.var v) value = .ok (.ok q) := by
  obtain ⟨⟨m, i⟩, hf⟩ := SsaMap.exists_fresh v.ty (by simpa using h v.name)
  have hlift : (liftM (p.ssa.fresh v.name v.ty) : Attempt (SsaMap × UInt32)) = .ok (.ok (m, i)) :=
    attempt_lift_ok.2 hf
  cases value with
  | none => exact ⟨_, attempt_bind_ok.2 ⟨v, rfl, attempt_bind_ok.2 ⟨(m, i), hlift, rfl⟩⟩⟩
  | some e => exact ⟨_, attempt_bind_ok.2 ⟨v, rfl, attempt_bind_ok.2 ⟨(m, i), hlift, rfl⟩⟩⟩

/-- Bindings of variables succeed if there are indices for them. -/
theorem bind_total {read : SsaMap} {bs : List (Expr × Expr)}
    (hbs : ∀ b ∈ bs, ∃ v, b.1 = .var v) (h : p.Room ((bs.map (·.1)).filterMap Expr.name?)) :
    ∃ q, bind read p bs = .ok (.ok q) := by
  induction bs generalizing p with
  | nil => exact ⟨p, rfl⟩
  | cons b bs ih =>
    obtain ⟨v, hv⟩ := hbs b (by simp)
    rw [Expr.names_cons hv] at h
    obtain ⟨r, hr⟩ := write_total (some (b.2.indexed read)) h.head
    obtain ⟨q, hq⟩ := ih (fun c hc => hbs c (by simp [hc])) (h.tail (write_numbers hr))
    exact ⟨q, attempt_bind_ok.2 ⟨r, hv ▸ hr, hq⟩⟩

/-- A branch succeeds if there is an index for its variable. -/
theorem branch_total {l : Location} (condition : Expr) (truth : Bool)
    (h : p.Room [Var.branchName l.idx]) : ∃ q, p.branch l condition truth = .ok (.ok q) := by
  obtain ⟨⟨m, i⟩, hf⟩ := SsaMap.exists_fresh .bool (by simpa using h (Var.branchName l.idx))
  cases truth with
  | true => exact ⟨_, attempt_bind_ok.2 ⟨(m, i), attempt_lift_ok.2 hf, rfl⟩⟩
  | false => exact ⟨_, attempt_bind_ok.2 ⟨(m, i), attempt_lift_ok.2 hf, rfl⟩⟩

/-- Extending by assignments is binding parameters. -/
theorem extend_of_bindings? {s : Statement} {bs : List (Expr × Expr)} (h : s.bindings? = some bs)
    {l : Location} {e : EdgeId} : p.extend l e s = bind p.ssa p bs := by
  have one (target value : Expr) : p.write target (some (value.indexed p.ssa)) =
      bind p.ssa p [(target, value)] := by
    show _ = p.write target (some (value.indexed p.ssa)) >>= pure
    rw [bind_pure]
  unfold Statement.bindings? at h
  split at h <;> cases h
  · rfl
  · rfl
  · rfl
  · exact one _ _
  · exact one _ _
  · exact one _ _
  · rfl

/-- Every statement with a meaning can be encoded, if there are indices for what it writes. -/
theorem extend_total {edge : Edge} (hs : edge.statement.Encodable) (h : p.Room edge.written)
    (e : EdgeId) : ∃ q, p.extend edge.source e edge.statement = .ok (.ok q) := by
  cases hbs : edge.statement.bindings? with
  | some bs =>
    rw [extend_of_bindings? hbs]
    rw [Edge.written_of_bindings? hbs] at h
    refine bind_total (fun b hb => hs.targets b.1 ?_) h
    rw [Statement.targets_of_bindings? hbs]
    exact List.mem_map.2 ⟨b, hb, rfl⟩
  | none =>
    -- what is left is an assumption or a declaration without initial value
    obtain ⟨source, target, s⟩ := edge
    cases s with
    | unknown description => exact absurd rfl (hs.known description)
    | assume condition truth => exact branch_total condition truth h
    | declare declared initial =>
      cases initial with
      | some => cases hbs
      | none =>
        obtain ⟨v, rfl⟩ := hs.targets declared (by simp [Statement.targets])
        exact write_total none h
    | blank | callToReturn | assign | call => cases hbs
    | ret result => cases result <;> cases hbs

/-! ## Along several edges -/

/-- The path formula after some more edges. -/
def along : PathFormula → List (EdgeId × Edge) → Attempt PathFormula
  | p, [] => return p
  | p, (e, edge) :: es => do along (← p.extend edge.source e edge.statement) es

/-- A path takes its first edge and goes on. -/
theorem along_cons_ok {e : EdgeId} {edge : Edge} {es : List (EdgeId × Edge)} :
    p.along ((e, edge) :: es) = .ok (.ok q) ↔
      ∃ r, p.extend edge.source e edge.statement = .ok (.ok r) ∧ r.along es = .ok (.ok q) :=
  attempt_bind_ok

/-- A path can be encoded if there are indices for all that it writes. -/
theorem along_total {es : List (EdgeId × Edge)} (hes : ∀ e ∈ es, e.2.statement.Encodable)
    (h : p.Room (es.flatMap fun e => e.2.written)) : ∃ q, p.along es = .ok (.ok q) := by
  -- induction on the edges: after the first one there is room for the rest
  induction es generalizing p with
  | nil => exact ⟨p, rfl⟩
  | cons first es ih =>
    obtain ⟨e, edge⟩ := first
    rw [List.flatMap_cons] at h
    obtain ⟨r, hr⟩ := extend_total (hes (e, edge) (by simp)) h.head e
    obtain ⟨q, hq⟩ := ih (fun d hd => hes d (by simp [hd])) (h.tail (extend_numbers hr))
    exact ⟨q, along_cons_ok.2 ⟨r, hr, hq⟩⟩

/-- What the edges do to a store, a model of the formula follows. -/
theorem along_forward (hP : Plain P) {es : List (EdgeId × Edge)}
    (hes : ∀ e ∈ es, e.2.statement.Over P) (hp : p.Seen) (h : p.along es = .ok (.ok q))
    (hV : p.formula.truth V = true) (hr : Env.Reads P V p.ssa σ)
    (hrun : Edge.Runs (es.map (·.2)) σ σ') :
    ∃ V', V.AgreesUpTo p.ssa V' ∧ q.formula.truth V' = true ∧ Env.Reads P V' q.ssa σ' := by
  induction es generalizing p V σ with
  | nil =>
    cases attempt_pure_ok.1 h
    cases hrun
    exact ⟨V, .refl V _, hV, hr⟩
  | cons first es ih =>
    obtain ⟨e, edge⟩ := first
    obtain ⟨r, hext, h⟩ := along_cons_ok.1 h
    obtain ⟨τ, hstep, hrun⟩ := hrun
    have hs : edge.statement.Over P := hes (e, edge) (by simp)
    obtain ⟨V₁, hagree, hV₁, hr₁⟩ := extend_forward hP hp hs hext hV hr hstep
    -- the model for the later edges agrees with this one on all that this edge speaks about
    have hwithin := hp.within.extend versioned_true (fun _ _ _ _ => trivial)
      (fun d hd v hv => ⟨hP.unindexed v (hs.vars d hd v hv), trivial⟩) hext
    obtain ⟨V', hagree', hV', hr'⟩ :=
      ih (fun d hd => hes d (by simp [hd])) hwithin.seen h hV₁ hr₁ hrun
    exact ⟨V', hagree.trans hagree' (le_of_extend hext), hV', hr'⟩

/-- What a model of the formula reads, the edges can do. -/
theorem along_backward (hP : Vocabulary P) {es : List (EdgeId × Edge)}
    (hes : ∀ e ∈ es, e.2.statement.Over P) (h : p.along es = .ok (.ok q))
    (hV : q.formula.truth V = true) (hr : Env.Reads P V p.ssa σ) :
    p.formula.truth V = true ∧
      ∃ σ', Edge.Runs (es.map (·.2)) σ σ' ∧ Env.Reads P V q.ssa σ' := by
  induction es generalizing p σ with
  | nil =>
    cases attempt_pure_ok.1 h
    exact ⟨hV, σ, rfl, hr⟩
  | cons first es ih =>
    obtain ⟨e, edge⟩ := first
    obtain ⟨r, hext, h⟩ := along_cons_ok.1 h
    have hes' : ∀ d ∈ es, d.2.statement.Over P := fun d hd => hes d (by simp [hd])
    -- the formula before the later edges holds, whatever store is read there
    obtain ⟨hVr, -⟩ := ih hes' h (Env.reads_after V r.ssa)
    obtain ⟨hVp, τ, hstep, hτ⟩ := extend_backward hP (hes (e, edge) (by simp)) hext hVr hr
    obtain ⟨-, σ', hrun, hσ'⟩ := ih hes' h hτ
    exact ⟨hVp, σ', ⟨τ, hstep, hrun⟩, hσ'⟩

/-! ## Branches taken -/

/-- Only assumptions write branch variables. -/
theorem branchName_notMem_written (hP : Plain P) {edge : Edge} (hs : edge.statement.Over P)
    (h : ∀ condition truth, edge.statement ≠ .assume condition truth) (l : Nat) :
    Var.branchName l ∉ edge.written := by
  rw [Edge.written_eq h]
  intro hmem
  obtain ⟨e, he, hname⟩ := List.mem_filterMap.1 hmem
  cases e with
  | var v =>
    have hname : v.name = Var.branchName l := Option.some.inj hname
    have hv := hs.vars (.var v) (Statement.targets_subset_exprs _ he) v (by simp)
    have hbranch : v.isBranch = true := by
      rw [Var.isBranch, hname]
      exact Var.isBranch_branch l 0
    rw [hP.notBranch v hv] at hbranch
    cases hbranch
  | _ => cases hname

/-- Of all edges, assumptions that leave a location write its branch variable. -/
theorem index_branchName_of_extend (hP : Plain P) {edge : Edge} (hs : edge.statement.Over P)
    {e : EdgeId} (h : p.extend edge.source e edge.statement = .ok (.ok q)) {l : Location}
    (hne : ∀ condition truth, edge.statement = .assume condition truth → edge.source ≠ l) :
    q.ssa.index (Var.branchName l.idx) = p.ssa.index (Var.branchName l.idx) := by
  have hcount : edge.written.count (Var.branchName l.idx) = 0 := by
    refine List.count_eq_zero.2 ?_
    by_cases hassume : ∃ condition truth, edge.statement = .assume condition truth
    · obtain ⟨condition, truth, hst⟩ := hassume
      have hidx : l.idx ≠ edge.source.idx := fun h =>
        hne condition truth hst (congrArg Id.mk h.symm)
      simpa [Edge.written, hst, Var.branchName_inj] using hidx
    · exact branchName_notMem_written hP hs (fun c t hst => hassume ⟨c, t, hst⟩) l.idx
  rw [extend_numbers h (Var.branchName l.idx), hcount]
  simp

/-- The branches taken at a location are told by its branch variable, write by write. -/
theorem val_branch_along (hP : Vocabulary P) {es : List (EdgeId × Edge)}
    (hes : ∀ e ∈ es, e.2.statement.Over P) (h : p.along es = .ok (.ok q))
    (hV : q.formula.truth V = true) {l : Location} {k : Nat} {b : Bool}
    (hk : (Edge.assumptionsAt l (es.map (·.2)))[k]? = some b) :
    V.val (Var.branch l.idx (p.ssa.index (Var.branchName l.idx) + UInt32.ofNat (k + 1))) =
      .bool b := by
  induction es generalizing p k with
  | nil => simp [Edge.assumptionsAt] at hk
  | cons first es ih =>
    obtain ⟨e, edge⟩ := first
    obtain ⟨r, hext, h⟩ := along_cons_ok.1 h
    have hes' : ∀ d ∈ es, d.2.statement.Over P := fun d hd => hes d (by simp [hd])
    have hs : edge.statement.Over P := hes (e, edge) (by simp)
    rw [List.map_cons, Edge.assumptionsAt] at hk
    split at hk
    · next condition truth hst =>
      have hst : edge.statement = .assume condition truth := hst
      split at hk
      · next hl =>
        subst hl
        have hone : r.ssa.index (Var.branchName edge.source.idx) =
            p.ssa.index (Var.branchName edge.source.idx) + 1 := by
          rw [extend_numbers hext]
          simp [Edge.written, hst]
        cases k with
        | zero =>
          -- the first branch taken is told by the formula up to this edge
          cases hk
          obtain ⟨hVr, -⟩ := along_backward hP hes' h hV (Env.reads_after V r.ssa)
          rw [hst] at hext
          obtain ⟨m, i, hf, rfl⟩ := branch_ok hext
          have hi : i = p.ssa.index (Var.branchName edge.source.idx) + 1 :=
            (SsaMap.fresh_ok hf).2.1.symm.trans hone
          rw [conjoin, Expr.truth_and, Bool.and_eq_true, truth_branchLiterals, hi] at hVr
          exact (Datum.eq_bool_of_ty (V.typed (Var.branch _ _))).trans (congrArg _ hVr.2.2)
        | succ k =>
          -- the later ones are counted from the numbering after this edge
          have hlater := ih hes' h hk
          rw [hone, UInt32.add_assoc] at hlater
          rw [Nat.add_comm (k + 1) 1, UInt32.ofNat_add]
          exact hlater
      · next hl =>
        have hsame := index_branchName_of_extend hP.toPlain hs hext fun _ _ _ => hl
        rw [← hsame]
        exact ih hes' h hk
    · next hst =>
      have hsame := index_branchName_of_extend (l := l) hP.toPlain hs hext
        fun c t heq => absurd heq (hst c t)
      rw [← hsame]
      exact ih hes' h hk

/-! ## Exactness -/

/-- From any numbering, as long as there are indices for all writes, edges have a path formula. It
leads from one store to another, as far as the variables of the program tell, exactly if the edges
do; and each model tells the branches that are taken. -/
theorem along_exact (hP : Vocabulary P) {es : List (EdgeId × Edge)}
    (hes : ∀ e ∈ es, e.2.statement.Over P ∧ e.2.statement.Encodable) {m : SsaMap}
    (hroom : (PathFormula.empty m).Room (es.flatMap fun e => e.2.written)) :
    ∃ p, (PathFormula.empty m).along es = .ok (.ok p) ∧
      (∀ σ τ, (∃ τ', Edge.Runs (es.map (·.2)) σ τ' ∧ ∀ v, P v → τ'.val v = τ.val v) ↔
        ∃ V : Store, p.formula.truth V = true ∧ Env.Reads P V m σ ∧ Env.Reads P V p.ssa τ) ∧
      ∀ V : Store, p.formula.truth V = true → ∀ l k b,
        (Edge.assumptionsAt l (es.map (·.2)))[k]? = some b →
          V.val (Var.branch l.idx (m.index (Var.branchName l.idx) + UInt32.ofNat (k + 1))) =
            .bool b := by
  have hover : ∀ e ∈ es, e.2.statement.Over P := fun e he => (hes e he).1
  obtain ⟨p, hp⟩ := along_total (fun e he => (hes e he).2) hroom
  refine ⟨p, hp, fun σ τ => ⟨?_, ?_⟩, fun V hV l k b hk => val_branch_along hP hover hp hV hk⟩
  · rintro ⟨τ', hrun, hτ⟩
    have hseen : (PathFormula.empty m).Seen := fun v hv => by simp [PathFormula.empty] at hv
    have hstart := Env.reads_spread hP.toPlain σ m
    obtain ⟨V, hagree, hV, hr⟩ := along_forward hP.toPlain hover hseen hp rfl hstart hrun
    exact ⟨V, hV, hagree.reads hP.unindexed hstart, fun v hv => (hr v hv).trans (hτ v hv)⟩
  · rintro ⟨V, hV, hσ, hτ⟩
    obtain ⟨-, τ', hrun, hτ'⟩ := along_backward hP hover hp hV hσ
    exact ⟨τ', hrun, fun v hv => (hτ' v hv).symm.trans (hτ v hv)⟩

def roundTripVars : List Var := [varX, varY]

/-- A loop body that is entered and then left. The call in it binds its parameter twice, and reads
it in the second argument. -/
def roundTrip : List (EdgeId × Edge) :=
  [(⟨0⟩, ⟨⟨0⟩, ⟨1⟩, .assume (.cmp .lt varX (.num 3)) true⟩),
    (⟨1⟩, ⟨⟨1⟩, ⟨0⟩, .call [(varX, varY), (varX, .arith .add varX (.num 1))]⟩),
    (⟨2⟩, ⟨⟨0⟩, ⟨2⟩, .assume (.cmp .lt varX (.num 3)) false⟩)]

theorem along_exact_roundTrip :
    Vocabulary (· ∈ roundTripVars) ∧
    (∀ e ∈ roundTrip, e.2.statement.Over (· ∈ roundTripVars) ∧ e.2.statement.Encodable) ∧
    (PathFormula.empty .empty).Room (roundTrip.flatMap fun e => e.2.written) ∧
    ∃ p, (PathFormula.empty .empty).along roundTrip = .ok (.ok p) ∧
      (∀ σ τ, (∃ τ', Edge.Runs (roundTrip.map (·.2)) σ τ' ∧
          ∀ v ∈ roundTripVars, τ'.val v = τ.val v) ↔
        ∃ V : Store, p.formula.truth V = true ∧ Env.Reads (· ∈ roundTripVars) V .empty σ ∧
          Env.Reads (· ∈ roundTripVars) V p.ssa τ) ∧
      ∀ V : Store, p.formula.truth V = true →
        V.val (Var.branch 0 1) = .bool true ∧ V.val (Var.branch 0 2) = .bool false := by
  have htypes : ∀ v ∈ roundTripVars, ∀ w ∈ roundTripVars, v.name = w.name → v.ty = w.ty := by decide
  have hP : Vocabulary (· ∈ roundTripVars) :=
    ⟨by decide, by decide, fun v w hv hw => htypes v hv w hw⟩
  have hes : ∀ e ∈ roundTrip, e.2.statement.Over (· ∈ roundTripVars) ∧ e.2.statement.Encodable := by
    refine List.forall_mem_cons.2 ⟨⟨⟨by decide, ?_⟩, ?_⟩, List.forall_mem_cons.2
      ⟨⟨⟨by decide, ?_⟩, ?_⟩, List.forall_mem_cons.2 ⟨⟨⟨by decide, ?_⟩, ?_⟩, by simp⟩⟩⟩
    · simp [Statement.exprs, roundTripVars]
    · exact ⟨by simp, by simp [Statement.targets]⟩
    · simp [Statement.exprs, roundTripVars]
    · exact ⟨by simp, by simp [Statement.targets]⟩
    · simp [Statement.exprs, roundTripVars]
    · exact ⟨by simp, by simp [Statement.targets]⟩
  have hroom : (PathFormula.empty .empty).Room (roundTrip.flatMap fun e => e.2.written) := by
    intro name
    have hlength : (roundTrip.flatMap fun e => e.2.written).length = 4 := by decide
    have hcount := List.count_le_length (a := name) (l := roundTrip.flatMap fun e => e.2.written)
    have hzero : ((PathFormula.empty .empty).ssa.index name).toNat = 0 := by
      simp [PathFormula.empty, SsaMap.index, SsaMap.empty]
    simp only [UInt32.size]
    omega
  obtain ⟨p, hp, hruns, hbranches⟩ := along_exact hP hes hroom
  exact ⟨hP, hes, hroom, p, hp, hruns, fun V hV =>
    ⟨hbranches V hV ⟨0⟩ 0 true rfl, hbranches V hV ⟨0⟩ 1 false rfl⟩⟩

end PathFormula

end Cegar

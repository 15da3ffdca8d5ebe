import MassGridMiner.Lib.RefCount
import MassGridMiner.Lib.Run

/-!
# References to block templates

Works, the jobs of the pools and the copies of these share the templates they were made
from.  The functions that copy such a record or throw it away adjust the count of the
template themselves, some before and some after they overwrite the pointer.

## Main definitions

* `Record`, `Heap` — the records, as far as they point to templates, and the templates.
* `Heap.cleanWork`, …, `Heap.stratumWorkClean` — the functions of the source.
* `Heap.step` — one call.
* `Heap.Accounted` — every count is the number of records, and a template is freed when that
  is zero.
-/

namespace MassGridMiner

open RefCount

/-- A record in memory, as far as it points to templates: a work, a pool with its job and its
`last_work_copy`, a copied `struct stratum_work`, or one that was freed. -/
inductive Record
  | work (tr : Option ℕ)
  | pool (sworkTr : Option ℕ) (lastWorkCopy : Option ℕ)
  | swork (tr : Option ℕ)
  | freed

/-- The template that a record points to. -/
def Record.ref : Record → Option ℕ
  | work tr | swork tr => tr
  | pool sworkTr _ => sworkTr
  | freed => none

/-- The `bfg_tmpl_ref`s and the records, each by its address. -/
structure Heap where
  tmpls : List Ref
  recs : List Record

namespace Heap

/-- `tmpl_incref`. -/
def tmplIncref (s : Heap) (tr : ℕ) : Heap := { s with tmpls := incref s.tmpls tr }

/-- `tmpl_decref`. -/
def tmplDecref (s : Heap) (tr : ℕ) : Heap := { s with tmpls := decref s.tmpls tr }

/-- `if (tr) tmpl_incref(tr)`. -/
def increfIf (s : Heap) (tr : Option ℕ) : Heap := tr.elim s s.tmplIncref

/-- `if (tr) tmpl_decref(tr)`. -/
def decrefIf (s : Heap) (tr : Option ℕ) : Heap := tr.elim s s.tmplDecref

/-- `tmpl_makeref`; the new template is the last one. -/
def tmplMakeref (s : Heap) : Heap := { s with tmpls := makeref s.tmpls }

/-- A record is written. -/
def put (s : Heap) (a : ℕ) (r : Record) : Heap := { s with recs := s.recs.set a r }

/-- A record is allocated, at the address behind the others. -/
def alloc (s : Heap) (r : Record) : Heap := { s with recs := s.recs ++ [r] }

/-- `make_work`. -/
def makeWork (s : Heap) : Heap := s.alloc (.work none)

/-- `clean_work`. -/
def cleanWork (s : Heap) (work : ℕ) : Option Heap :=
  match s.recs[work]? with
  | some (.work tr) => some ((s.decrefIf tr).put work (.work none))
  | _ => none

/-- `free_work`. -/
def freeWork (s : Heap) (work : ℕ) : Option Heap :=
  (s.cleanWork work).map fun s => s.put work .freed

/-- `_copy_work`. -/
def copyWork (s : Heap) (work base : ℕ) : Option Heap :=
  (s.cleanWork work).bind fun s =>
    match s.recs[base]? with
    | some (.work tr) => some ((s.put work (.work tr)).increfIf tr)
    | _ => none

/-- `copy_work_noffset`; the copy is the last record. -/
def copyWorkNoffset (s : Heap) (base : ℕ) : Option Heap := s.makeWork.copyWork s.recs.length base

/-- What `prepare_rpc_req2` comes to: no template is wanted or none can be made, the request
cannot be built for the template made, or it is. -/
inductive RpcReq
  | noTemplate
  | gbtfail
  | request

/-- `prepare_rpc_req2`. -/
def prepareRpcReq2 (s : Heap) (work : ℕ) (req : RpcReq) : Option Heap :=
  (s.cleanWork work).map fun s =>
    match req with
    | .noTemplate => s
    | .request => s.tmplMakeref.put work (.work (some s.tmpls.length))
    | .gbtfail =>
      ((s.tmplMakeref.put work (.work (some s.tmpls.length))).tmplDecref s.tmpls.length).put work
        (.work none)

/-- The template of a job. -/
def sworkTr (s : Heap) (swork : ℕ) : Option (Option ℕ) :=
  match s.recs[swork]? with
  | some (.pool tr _) => some tr
  | some (.swork tr) => some tr
  | _ => none

/-- The end of `gen_stratum_work3`. -/
def genStratumWork3 (s : Heap) (work swork : ℕ) : Option Heap :=
  (s.sworkTr swork).map fun tr =>
    match tr with
    | some tr => (s.put work (.work (some tr))).tmplIncref tr
    | none => s

/-- `gen_stratum_work`. -/
def genStratumWork (s : Heap) (pool work : ℕ) : Option Heap :=
  (s.cleanWork work).bind fun s => s.genStratumWork3 work pool

/-- `work2d_gen_dummy_work` and `work2d_gen_dummy_work_for_stale_check`: the work starts as
an empty record. -/
def work2dGenDummyWork (s : Heap) (swork : ℕ) : Option Heap :=
  (s.alloc (.work none)).genStratumWork3 s.recs.length swork

/-- `work_decode`; `mdata` is what `blkmk_get_mdata` returns. -/
def workDecode (s : Heap) (pool work : ℕ) (mdata : Bool) : Option Heap :=
  match s.recs[work]?, s.recs[pool]? with
  | some (.work (some tr)), some (.pool sworkTr last) =>
    if mdata then some (((s.decrefIf sworkTr).put pool (.pool (some tr) last)).tmplIncref tr)
    else some s
  | some (.work none), some (.pool _ _) => some s
  | _, _ => none

/-- `parse_notify`, of a notify that is accepted. -/
def parseNotify (s : Heap) (pool : ℕ) : Option Heap :=
  match s.recs[pool]? with
  | some (.pool (some tr) last) => some ((s.tmplDecref tr).put pool (.pool none last))
  | some (.pool none _) => some s
  | _ => none

/-- The work that the pool keeps is freed. -/
def freeLastWork (s : Heap) (pool : ℕ) : Option Heap :=
  match s.recs[pool]? with
  | some (.pool _ (some last)) => s.freeWork last
  | some (.pool _ none) => some s
  | _ => none

/-- The work that the pool keeps is set. -/
def setLastWork (s : Heap) (pool : ℕ) (last : Option ℕ) : Option Heap :=
  match s.recs[pool]? with
  | some (.pool sworkTr _) => some (s.put pool (.pool sworkTr last))
  | _ => none

/-- `update_last_work`. -/
def updateLastWork (s : Heap) (pool work : ℕ) : Option Heap :=
  match s.recs[work]? with
  | some (.work none) => some s
  | some (.work (some _)) =>
    (s.freeLastWork pool).bind fun s =>
      (s.copyWorkNoffset work).bind fun s' => s'.setLastWork pool (some s.recs.length)
  | _ => none

/-- `get_work_thread` gives up the work that the pool keeps. -/
def dropLastWork (s : Heap) (pool : ℕ) : Option Heap :=
  (s.freeLastWork pool).bind fun s => s.setLastWork pool none

/-- `stratum_work_cpy`, into a record that was allocated for it. -/
def stratumWorkCpy (s : Heap) (src : ℕ) : Option Heap :=
  (s.sworkTr src).map fun tr => (s.alloc (.swork tr)).increfIf tr

/-- `stratum_work_clean`, after which the record is freed. -/
def stratumWorkClean (s : Heap) (swork : ℕ) : Option Heap :=
  match s.recs[swork]? with
  | some (.swork tr) => some ((s.decrefIf tr).put swork .freed)
  | _ => none

/-- The calls, each with the addresses it is given. -/
inductive Event
  | addPool
  | makeWork
  | copyWork (work base : ℕ)
  | cleanWork (work : ℕ)
  | freeWork (work : ℕ)
  | prepareRpcReq2 (work : ℕ) (req : RpcReq)
  | genStratumWork (pool work : ℕ)
  | work2dGenDummyWork (swork : ℕ)
  | workDecode (pool work : ℕ) (mdata : Bool)
  | parseNotify (pool : ℕ)
  | updateLastWork (pool work : ℕ)
  | dropLastWork (pool : ℕ)
  | stratumWorkCpy (src : ℕ)
  | stratumWorkClean (swork : ℕ)

/-- One call; none where an address is not that of such a record. -/
def step (s : Heap) : Event → Option Heap
  | .addPool => some (s.alloc (.pool none none))
  | .makeWork => some s.makeWork
  | .copyWork work base => s.copyWork work base
  | .cleanWork work => s.cleanWork work
  | .freeWork work => s.freeWork work
  | .prepareRpcReq2 work req => s.prepareRpcReq2 work req
  | .genStratumWork pool work => s.genStratumWork pool work
  | .work2dGenDummyWork swork => s.work2dGenDummyWork swork
  | .workDecode pool work mdata => s.workDecode pool work mdata
  | .parseNotify pool => s.parseNotify pool
  | .updateLastWork pool work => s.updateLastWork pool work
  | .dropLastWork pool => s.dropLastWork pool
  | .stratumWorkCpy src => s.stratumWorkCpy src
  | .stratumWorkClean swork => s.stratumWorkClean swork

def init : Heap := ⟨[], []⟩

/-- The number of works, jobs of pools and copied jobs that point to a template. -/
def references (s : Heap) (t : ℕ) : ℕ := s.recs.countP fun r => r.ref == some t

/-- The count of a template that is not freed is the number of its references, it was freed
just if there are none, once, and was not used after that; and every pointer is to such a
template. -/
structure Accounted (s : Heap) : Prop where
  refcount_eq : ∀ (t : ℕ) (r : Ref), s.tmpls[t]? = some r → r.frees = 0 →
    r.refcount = s.references t
  frees_eq : ∀ (t : ℕ) (r : Ref), s.tmpls[t]? = some r →
    r.frees = if s.references t = 0 then 1 else 0
  fresh : ∀ (t : ℕ) (r : Ref), s.tmpls[t]? = some r → r.stale = false
  live : ∀ (a : ℕ) (r : Record) (t : ℕ), s.recs[a]? = some r → r.ref = some t →
    ∃ tr : Ref, s.tmpls[t]? = some tr ∧ tr.frees = 0

/-! ## The invariant -/

/-- The templates have the references that the records hold. -/
def Inv (s : Heap) : Prop := Balanced s.tmpls (holders Record.ref s.recs)

theorem references_eq (s : Heap) (t : ℕ) : holders Record.ref s.recs t = (s.references t : ℤ) :=
  holders_eq_countP Record.ref s.recs t

theorem Inv.accounted {s : Heap} (H : s.Inv) : s.Accounted := by
  have hspec : ∀ (t : ℕ) (r : Ref), s.tmpls[t]? = some r → r.Has (s.references t) := by
    intro t r hr
    have ht := H t
    rwa [hr, references_eq] at ht
  constructor
  · intro t r hr hfrees
    have hhas := hspec t r hr
    refine hhas.refcount_eq ?_
    have hne : (s.references t : ℤ) ≠ 0 := by
      intro hzero
      have := hhas.frees_eq
      rw [if_pos hzero] at this
      omega
    have := hhas.nonneg
    omega
  · intro t r hr
    rw [(hspec t r hr).frees_eq]
    norm_cast
  · exact fun t r hr => (hspec t r hr).fresh
  · intro a r t hr ht
    have hpos := holders_pos hr ht
    obtain ⟨tr, htr, hhas⟩ := H.exists_of_pos hpos
    exact ⟨tr, htr, by rw [hhas.frees_eq, if_neg (by omega)]⟩

/-! ## What the functions are made of -/

section
variable {s : Heap} {a : ℕ} {old new : Record}

/-- A record that pointed to nothing, or to the same, is overwritten. -/
theorem Inv.put (H : s.Inv) (hold : s.recs[a]? = some old) (href : new.ref = old.ref) :
    (s.put a new).Inv := by
  rw [Inv, Heap.put, holders_set hold, href, sub_add_cancel]
  exact H

theorem Inv.alloc (H : s.Inv) (href : new.ref = none) : (s.alloc new).Inv := by
  rw [Inv, Heap.alloc, holders_append, holders_cons, holders_nil, href, one_none, add_zero,
    add_zero]
  exact H

/-- The pointer of a record is given up. -/
theorem Inv.decrefIf_put (H : s.Inv) (new : Record) (hold : s.recs[a]? = some old)
    (href : new.ref = none) : ((s.decrefIf old.ref).put a new).Inv := by
  cases htr : old.ref with
  | none => exact H.put hold (href.trans htr.symm)
  | some t =>
      rw [Inv, Heap.put, decrefIf, Option.elim, tmplDecref, holders_set hold, href, htr, one_none,
        add_zero]
      exact H.decref (holders_pos hold htr)

/-- A record comes to share a template that has a reference. -/
theorem Inv.put_increfIf (H : s.Inv) (new : Record) (hold : s.recs[a]? = some old)
    (hnone : old.ref = none) (hpos : ∀ t, new.ref = some t → 0 < holders Record.ref s.recs t) :
    ((s.put a new).increfIf new.ref).Inv := by
  cases htr : new.ref with
  | none => exact H.put hold (htr.trans hnone.symm)
  | some t =>
      rw [Inv, Heap.put, increfIf, Option.elim, tmplIncref, holders_set hold, hnone, htr, one_none,
        sub_zero]
      exact H.incref (hpos t htr)

theorem Inv.alloc_increfIf (H : s.Inv) (new : Record)
    (hpos : ∀ t, new.ref = some t → 0 < holders Record.ref s.recs t) :
    ((s.alloc new).increfIf new.ref).Inv := by
  cases htr : new.ref with
  | none => exact H.alloc htr
  | some t =>
      rw [Inv, Heap.alloc, increfIf, Option.elim, tmplIncref, holders_append, holders_cons,
        holders_nil, htr, add_zero]
      exact H.incref (hpos t htr)

end

/-! ## The functions -/

section
variable {s s' : Heap}

/-- A work is cleaned. -/
theorem cleanWork_spec {work : ℕ} (H : s.cleanWork work = some s') (hinv : s.Inv) :
    s'.Inv ∧ s'.recs[work]? = some (.work none) := by
  rw [cleanWork] at H
  split at H
  next tr htr =>
    obtain rfl := Option.some.inj H
    refine ⟨hinv.decrefIf_put _ htr rfl, ?_⟩
    have hlt : work < s.recs.length := (List.getElem?_eq_some_iff.mp htr).1
    cases tr <;> simp [Heap.put, decrefIf, tmplDecref, hlt]
  next => cases H

theorem Inv.freeWork (hinv : s.Inv) {work : ℕ} (H : s.freeWork work = some s') : s'.Inv := by
  obtain ⟨t, ht, rfl⟩ := Option.map_eq_some_iff.mp H
  obtain ⟨hclean, hnone⟩ := cleanWork_spec ht hinv
  exact hclean.put hnone rfl

theorem Inv.copyWork (hinv : s.Inv) {work base : ℕ} (H : s.copyWork work base = some s') :
    s'.Inv := by
  obtain ⟨t, ht, hcopy⟩ := Option.bind_eq_some_iff.mp H
  obtain ⟨hclean, hnone⟩ := cleanWork_spec ht hinv
  split at hcopy
  next tr hbase =>
    obtain rfl := Option.some.inj hcopy
    exact hclean.put_increfIf _ hnone rfl fun u hu => holders_pos hbase hu
  next => cases hcopy

theorem Inv.copyWorkNoffset (hinv : s.Inv) {base : ℕ} (H : s.copyWorkNoffset base = some s') :
    s'.Inv :=
  Inv.copyWork (s := s.makeWork) (hinv.alloc rfl) H

theorem Inv.prepareRpcReq2 (hinv : s.Inv) {work : ℕ} {req : RpcReq}
    (H : s.prepareRpcReq2 work req = some s') : s'.Inv := by
  obtain ⟨t, ht, rfl⟩ := Option.map_eq_some_iff.mp H
  obtain ⟨hclean, hnone⟩ := cleanWork_spec ht hinv
  have hlt : work < t.recs.length := (List.getElem?_eq_some_iff.mp hnone).1
  have hmade : (t.tmplMakeref.put work (.work (some t.tmpls.length))).Inv := by
    rw [Inv, Heap.put, tmplMakeref, holders_set hnone, Record.ref, one_none, sub_zero]
    exact Balanced.makeref hclean
  cases req with
  | noTemplate => exact hclean
  | request => exact hmade
  | gbtfail =>
      have hset : (t.tmplMakeref.put work (.work (some t.tmpls.length))).recs[work]? =
          some (.work (some t.tmpls.length)) := by
        simp [Heap.put, tmplMakeref, hlt]
      exact hmade.decrefIf_put _ hset rfl

theorem sworkTr_eq_some {swork : ℕ} {tr : Option ℕ} (H : s.sworkTr swork = some tr) :
    ∃ r, s.recs[swork]? = some r ∧ r.ref = tr := by
  rw [sworkTr] at H
  split at H
  next tr' last hr => exact ⟨_, hr, Option.some.inj H⟩
  next tr' hr => exact ⟨_, hr, Option.some.inj H⟩
  next => cases H

/-- A job shares its template with a work that points to none. -/
theorem Inv.genStratumWork3 (hinv : s.Inv) {work swork : ℕ}
    (hnone : s.recs[work]? = some (.work none))
    (H : s.genStratumWork3 work swork = some s') : s'.Inv := by
  obtain ⟨tr, htr, rfl⟩ := Option.map_eq_some_iff.mp H
  obtain ⟨r, hr, rfl⟩ := sworkTr_eq_some htr
  cases href : r.ref with
  | none => exact hinv
  | some t =>
      refine hinv.put_increfIf (.work (some t)) hnone rfl fun u hu => holders_pos hr ?_
      rw [href]
      exact hu

theorem Inv.genStratumWork (hinv : s.Inv) {pool work : ℕ}
    (H : s.genStratumWork pool work = some s') : s'.Inv := by
  obtain ⟨t, ht, hgen⟩ := Option.bind_eq_some_iff.mp H
  obtain ⟨hclean, hnone⟩ := cleanWork_spec ht hinv
  exact hclean.genStratumWork3 hnone hgen

theorem Inv.work2dGenDummyWork (hinv : s.Inv) {swork : ℕ}
    (H : s.work2dGenDummyWork swork = some s') : s'.Inv :=
  Inv.genStratumWork3 (hinv.alloc rfl) (by simp [Heap.alloc]) H

/-- The pool may give up the very template that it is given. -/
theorem Inv.workDecode (hinv : s.Inv) {pool work : ℕ} {mdata : Bool}
    (H : s.workDecode pool work mdata = some s') : s'.Inv := by
  rw [Heap.workDecode] at H
  split at H
  next tr sworkTr last hwork hpool =>
    cases mdata with
    | false =>
        obtain rfl := Option.some.inj H
        exact hinv
    | true =>
        obtain rfl := Option.some.inj H
        -- between the two the work still holds its template
        have hgiven : ((s.decrefIf sworkTr).put pool (.pool none last)).Inv :=
          hinv.decrefIf_put _ hpool rfl
        have hlt : pool < s.recs.length := (List.getElem?_eq_some_iff.mp hpool).1
        have hne : pool ≠ work := by
          rintro rfl
          rw [hwork] at hpool
          cases hpool
        have hrecs : (s.decrefIf sworkTr).recs = s.recs := by cases sworkTr <;> rfl
        have hput : ((s.decrefIf sworkTr).put pool (.pool none last)).put pool
            (.pool (some tr) last) = (s.decrefIf sworkTr).put pool (.pool (some tr) last) := by
          simp [Heap.put]
        have hset : ((s.decrefIf sworkTr).put pool (.pool none last)).recs[pool]? =
            some (.pool none last) := by
          simp [Heap.put, hrecs, hlt]
        have hkept : ((s.decrefIf sworkTr).put pool (.pool none last)).recs[work]? =
            some (.work (some tr)) := by
          simp only [Heap.put, hrecs, List.getElem?_set, hne, if_false, hwork]
        have hshared := hgiven.put_increfIf (.pool (some tr) last) hset rfl
          fun u hu => holders_pos hkept hu
        rwa [hput] at hshared
  next => exact Option.some.inj H ▸ hinv
  next => cases H

theorem Inv.parseNotify (hinv : s.Inv) {pool : ℕ} (H : s.parseNotify pool = some s') :
    s'.Inv := by
  rw [Heap.parseNotify] at H
  split at H
  next tr last hpool =>
    obtain rfl := Option.some.inj H
    exact hinv.decrefIf_put (.pool none last) hpool rfl
  next => exact Option.some.inj H ▸ hinv
  next => cases H

theorem Inv.freeLastWork (hinv : s.Inv) {pool : ℕ} (H : s.freeLastWork pool = some s') :
    s'.Inv := by
  rw [Heap.freeLastWork] at H
  split at H
  next last _ => exact hinv.freeWork H
  next => exact Option.some.inj H ▸ hinv
  next => cases H

theorem Inv.setLastWork (hinv : s.Inv) {pool : ℕ} {last : Option ℕ}
    (H : s.setLastWork pool last = some s') : s'.Inv := by
  rw [Heap.setLastWork] at H
  split at H
  next sworkTr _ hpool =>
    obtain rfl := Option.some.inj H
    exact hinv.put hpool rfl
  next => cases H

theorem Inv.updateLastWork (hinv : s.Inv) {pool work : ℕ}
    (H : s.updateLastWork pool work = some s') : s'.Inv := by
  rw [Heap.updateLastWork] at H
  split at H
  next => exact Option.some.inj H ▸ hinv
  next =>
    obtain ⟨t, ht, hrest⟩ := Option.bind_eq_some_iff.mp H
    obtain ⟨u, hu, hset⟩ := Option.bind_eq_some_iff.mp hrest
    exact ((hinv.freeLastWork ht).copyWorkNoffset hu).setLastWork hset
  next => cases H

theorem Inv.dropLastWork (hinv : s.Inv) {pool : ℕ} (H : s.dropLastWork pool = some s') :
    s'.Inv := by
  obtain ⟨t, ht, hset⟩ := Option.bind_eq_some_iff.mp H
  exact (hinv.freeLastWork ht).setLastWork hset

theorem Inv.stratumWorkCpy (hinv : s.Inv) {src : ℕ} (H : s.stratumWorkCpy src = some s') :
    s'.Inv := by
  obtain ⟨tr, htr, rfl⟩ := Option.map_eq_some_iff.mp H
  obtain ⟨r, hr, rfl⟩ := sworkTr_eq_some htr
  exact hinv.alloc_increfIf (.swork r.ref) fun t ht => holders_pos hr ht

theorem Inv.stratumWorkClean (hinv : s.Inv) {swork : ℕ} (H : s.stratumWorkClean swork = some s') :
    s'.Inv := by
  rw [Heap.stratumWorkClean] at H
  split at H
  next tr hswork =>
    obtain rfl := Option.some.inj H
    exact hinv.decrefIf_put _ hswork rfl
  next => cases H

/-- Every call keeps the invariant. -/
theorem Inv.step (hinv : s.Inv) {e : Event} (H : s.step e = some s') : s'.Inv := by
  cases e with
  | addPool => exact Option.some.inj H ▸ hinv.alloc rfl
  | makeWork => exact Option.some.inj H ▸ hinv.alloc rfl
  | copyWork work base => exact hinv.copyWork H
  | cleanWork work => exact (cleanWork_spec H hinv).1
  | freeWork work => exact hinv.freeWork H
  | prepareRpcReq2 work req => exact hinv.prepareRpcReq2 H
  | genStratumWork pool work => exact hinv.genStratumWork H
  | work2dGenDummyWork swork => exact hinv.work2dGenDummyWork H
  | workDecode pool work mdata => exact hinv.workDecode H
  | parseNotify pool => exact hinv.parseNotify H
  | updateLastWork pool work => exact hinv.updateLastWork H
  | dropLastWork pool => exact hinv.dropLastWork H
  | stratumWorkCpy src => exact hinv.stratumWorkCpy H
  | stratumWorkClean swork => exact hinv.stratumWorkClean H

end

/-- **Templates are accounted for**: whatever calls have been made, the count of a template
is the number of records that point to it, and it was freed just if there is none. -/
theorem accounted_of_exec {es : List Event} {s : Heap} (H : Run.exec step init es = some s) :
    s.Accounted := by
  have hstart : init.Inv := balanced_nil
  exact (Run.exec_of_invariant (fun _ _ _ hinv hstep => Inv.step hinv hstep) hstart H).accounted

/-- A template is installed again over itself and copied, and freed with the last record that
points to it. -/
def replacement : List Event :=
  [.addPool, .makeWork, .prepareRpcReq2 1 .request, .workDecode 0 1 true, .workDecode 0 1 true,
    .updateLastWork 0 1, .stratumWorkCpy 0, .parseNotify 0, .freeWork 1, .stratumWorkClean 3,
    .dropLastWork 0]

theorem accounted_replacement : ∃ s, Run.exec step init replacement = some s ∧ s.Accounted := by
  obtain ⟨s, hs⟩ : ∃ s, Run.exec step init replacement = some s := ⟨_, rfl⟩
  exact ⟨s, hs, accounted_of_exec hs⟩

end Heap

end MassGridMiner

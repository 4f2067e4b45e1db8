import Mathlib.Data.List.Perm.Subperm
import Shaper.LoadRuns

/-! Single alterations of a run that was accepted, in its records, its logs or its summary. -/
namespace Shaper.Measurements
open Function Lib.Grouping Lib.Raises

theorem same_iff {a b : Dict} :
    a.same b = true ↔ ∀ k, (a.get k).map Json.plain = (b.get k).map Json.plain := by
  unfold Dict.same
  rw [List.all_eq_true]
  constructor
  · intro h k
    by_cases hk : k ∈ (a.fields ++ b.fields).map Prod.fst
    · obtain ⟨f, hf, rfl⟩ := List.mem_map.mp hk
      exact of_decide_eq_true (h f hf)
    · rw [List.map_append, List.mem_append, not_or] at hk
      have ha : a.get k = none := lookup_eq_none hk.1
      have hb : b.get k = none := lookup_eq_none hk.2
      rw [ha, hb]
  · intro h f _
    exact decide_eq_true (h f.1)

theorem same_symm {a b : Dict} (h : a.same b = true) : b.same a = true :=
  same_iff.mpr fun k => (same_iff.mp h k).symm

theorem same_trans {a b c : Dict} (h : a.same b = true) (h' : b.same c = true) : a.same c = true :=
  same_iff.mpr fun k => (same_iff.mp h k).trans (same_iff.mp h' k)

theorem same_refl (a : Dict) : a.same a = true := same_iff.mpr fun _ => rfl

theorem raw_split (before after : List Line) (d : Dict) :
    raw (before ++ .json d :: after) = raw before ++ d :: raw after := by
  rw [raw, List.filterMap_append]
  rfl

theorem raw_eq_singleton {before after : List Line} {d row : Dict}
    (h : raw (before ++ .json d :: after) = [row]) :
    raw before = [] ∧ d = row ∧ raw after = [] := by
  rw [raw_split] at h
  cases hb : raw before with
  | nil =>
    rw [hb, List.nil_append, List.cons.injEq] at h
    exact ⟨rfl, h⟩
  | cons _ _ =>
    rw [hb] at h
    simp at h

theorem matchesRaw_iff {lines : List Line} {m : Dict} :
    matchesRaw lines m = true ↔ ∃ row, raw lines = [row] ∧ row.same m = true := by
  unfold matchesRaw
  generalize raw lines = rows
  match rows with
  | [] => simp
  | [row] => simp
  | _ :: _ :: _ => simp

theorem checkLog_eq_ok {logs : Files} {r : Record} :
    checkLog logs r = .ok () ↔
      ∃ lines row, logs r.log = some lines ∧ raw lines = [row] ∧ row.same r.measurement = true := by
  unfold checkLog
  cases hl : logs r.log with
  | none => simp
  | some lines =>
    rw [final_ok, matchesRaw_iff]
    constructor
    · rintro ⟨row, hraw, hsame⟩
      exact ⟨lines, row, rfl, hraw, hsame⟩
    · rintro ⟨lines', row, hlines, hraw, hsame⟩
      obtain rfl := Option.some.inj hlines
      exact ⟨row, hraw, hsame⟩

inductive Altered (dir : RunDir) : RunDir → Prop
  | dropRecord {before after : List Record} {r : Record}
      (h : dir.run.records = before ++ r :: after) (hp : r.phase ≠ "prepare") :
        Altered dir { dir with run := { dir.run with records := before ++ after } }
  | copyRecord {before after : List Record} {r : Record} (h : dir.run.records = before ++ after)
      (hr : r ∈ dir.run.records) :
        Altered dir { dir with run := { dir.run with records := before ++ r :: after } }
  | setField {before after : List Record} {r : Record} {d : Dict}
      (h : dir.run.records = before ++ r :: after) (hd : r.measurement.same d = false) :
      Altered dir
      { dir with run := { dir.run with records := before ++ { r with measurement := d } :: after } }
  | setLogField {before after : List Line} {r : Record} {d d' : Dict} (hr : r ∈ dir.run.records)
      (h : dir.logs r.log = some (before ++ .json d :: after)) (hd : d.same d' = false) :
      Altered dir { dir with logs := update dir.logs r.log (some (before ++ .json d' :: after)) }
  | dropLine {before after : List Line} {r : Record} {d : Dict} (hr : r ∈ dir.run.records)
      (h : dir.logs r.log = some (before ++ .json d :: after)) :
      Altered dir { dir with logs := update dir.logs r.log (some (before ++ after)) }
  | copyLine {before after : List Line} {r : Record} {d : Dict} (hr : r ∈ dir.run.records)
      (h : dir.logs r.log = some (before ++ after)) (hd : .json d ∈ before ++ after) :
      Altered dir { dir with logs := update dir.logs r.log (some (before ++ .json d :: after)) }
  | dropRow {before after : List Row} {row : Row} (h : dir.summary = before ++ row :: after) :
      Altered dir { dir with summary := before ++ after }
  | copyRow {before after : List Row} {row : Row} (h : dir.summary = before ++ after)
      (hr : row ∈ dir.summary) : Altered dir { dir with summary := before ++ row :: after }
  | setKey {before after : List Row} {row : Row} {key : List String}
      (h : dir.summary = before ++ row :: after) (hk : key ≠ row.key) :
        Altered dir { dir with summary := before ++ { row with key := key } :: after }
  | setNumber {before after : List Row} {row : Row} {front back : List ℚ} {q q' : ℚ}
      (h : dir.summary = before ++ row :: after) (hn : row.numbers = front ++ q :: back)
      (hq : max |q'| |q|/10^12 < |q'-q|) :
      Altered dir
      { dir with summary := before ++ { row with numbers := front ++ q' :: back } :: after }

structure Recorded (dir : RunDir) (pairs : List (PointKey × (Nat × ℚ))) :
    Prop extends Verified dir pairs where
  planned : ∀ r ∈ dir.run.records, r.phase ≠ "prepare" → r.rid ∈ plannedIds dir.run
  exactRows :
    ∀ row ∈ dir.summary, row.numbers = statistics ((pointValues (group pairs) row.key).map Prod.snd)

namespace Verified
variable {dir : RunDir} {pairs : List (PointKey × (Nat × ℚ))}

theorem ids (h : Verified dir pairs) : (dir.run.records.map Record.rid).Nodup :=
  (scanRecords_eq_ok.mp h.scan).2.1

theorem log (h : Verified dir pairs) {r : Record} (hr : r ∈ dir.run.records) :
    ∃ lines row, dir.logs r.log = some lines ∧ raw lines = [row] ∧ row.same r.measurement = true :=
  checkLog_eq_ok.mp ((scanRecords_eq_ok.mp h.scan).2.2.1 r hr)

/-- Python takes `true` for 1 and `false` for 0, so a line that it finds equal is accepted. -/
theorem equal_line (h : Verified dir pairs) {name : String} {before after : List Line} {d d' : Dict}
    (hl : dir.logs name = some (before ++ .json d :: after)) (hd : d'.same d = true) :
    Verified
    { dir with logs := update dir.logs name (some (before ++ .json d' :: after)) } pairs := by
  obtain ⟨hids, hn, -, hfound⟩ := scanRecords_eq_ok.mp h.scan
  refine { h with scan := scanRecords_eq_ok.mpr ⟨hids, hn, fun r hr => ?_, hfound⟩ }
  obtain ⟨lines, row, hlog, hraw, hsame⟩ := h.log hr
  rw [checkLog_eq_ok]
  by_cases hname : r.log = name
  · rw [hname, hl] at hlog
    obtain rfl := Option.some.inj hlog
    obtain ⟨hbefore, rfl, hafter⟩ := raw_eq_singleton hraw
    have hraw' : raw (before ++ .json d' :: after) = [d'] := by
      rw [raw_split, hbefore, hafter]
      rfl
    subst hname
    exact ⟨_, d', update_self _ _ _, hraw', same_trans hd hsame⟩
  · exact ⟨lines, row, (update_of_ne hname _ _).trans hlog, hraw, hsame⟩

theorem mem_keys (h : Verified dir pairs) {row : Row} (hr : row ∈ dir.summary) :
    row.key.map Json.text ∈ (group pairs).map Prod.fst := by
  obtain ⟨-, hne, -⟩ := checkPoint_eq_ok.mp (h.points row hr)
  by_contra hkey
  exact hne (item_eq_nil hkey)

theorem text_keys (h : Verified dir pairs) :
    ((dir.summary.map Row.key).map (List.map Json.text)).Perm ((group pairs).map Prod.fst) := by
  have hinj : Injective (List.map Json.text) := List.map_injective_iff.mpr fun _ _ => Json.text.inj
  have hsub : (dir.summary.map Row.key).map (List.map Json.text) ⊆ (group pairs).map Prod.fst := by
    intro k hk
    obtain ⟨key, hkey, rfl⟩ := List.mem_map.mp hk
    obtain ⟨row, hrow, rfl⟩ := List.mem_map.mp hkey
    exact h.mem_keys hrow
  apply (List.subperm_of_subset (h.keys.map hinj) hsub).perm_of_length_le
  simp [h.count]

theorem mem_rows (h : Verified dir pairs) {key : List String}
    (hk : key.map Json.text ∈ (group pairs).map Prod.fst) : key ∈ dir.summary.map Row.key := by
  obtain ⟨key', hkey', heq⟩ := List.mem_map.mp (h.text_keys.mem_iff.mpr hk)
  rwa [← List.map_injective_iff.mpr (fun _ _ => Json.text.inj) heq]

end Verified

theorem closeNumbers_split {front back : List ℚ} {q q' : ℚ}
    (h : closeNumbers (front ++ q' :: back) (front ++ q :: back) = true) :
    |q'-q| ≤ max |q'| |q|/10^12 := by
  induction front with
  | nil => exact of_decide_eq_true (Bool.and_eq_true_iff.mp h).1
  | cons _ front ih => exact ih (Bool.and_eq_true_iff.mp h).2

namespace Recorded
variable {dir dir' : RunDir} {pairs pairs' : List (PointKey × (Nat × ℚ))}

/-- A log of the run that was changed no longer holds just the measurement. -/
theorem changed_log (h : Verified dir pairs) {r : Record} (hr : r ∈ dir.run.records)
    {lines lines' : List Line} (hl : dir.logs r.log = some lines)
    (h' : Verified { dir with logs := update dir.logs r.log (some lines') } pairs') :
    ∃ row row', raw lines = [row] ∧ raw lines' = [row'] ∧ row.same row' = true := by
  obtain ⟨_, row, hl₁, hraw, hsame⟩ := h.log hr
  obtain ⟨_, row', hl₂, hraw', hsame'⟩ := h'.log hr
  obtain rfl := Option.some.inj (hl.symm.trans hl₁)
  change update dir.logs r.log (some lines') r.log = _ at hl₂
  rw [update_self] at hl₂
  obtain rfl := Option.some.inj hl₂
  exact ⟨row, row', hraw, hraw', same_trans hsame (same_symm hsame')⟩

theorem not_verified (h : Recorded dir pairs) (ha : Altered dir dir') : ¬ Verified dir' pairs' := by
  intro h'
  cases ha with
  | @dropRecord before after r hrec hp =>
    have hr : r ∈ dir.run.records := by simp [hrec]
    have hid : r.rid ∈ (before ++ after).map Record.rid := h'.complete _ (h.planned r hr hp)
    have hn := h.ids
    rw [hrec, List.map_append, List.map_cons, List.nodup_middle, ← List.map_append] at hn
    exact (List.nodup_cons.mp hn).1 hid
  | @copyRecord before after r hrec hr =>
    have hn : ((before ++ r :: after).map Record.rid).Nodup := h'.ids
    rw [List.map_append, List.map_cons, List.nodup_middle, ← List.map_append, ← hrec] at hn
    exact (List.nodup_cons.mp hn).1 (List.mem_map_of_mem hr)
  | @setField before after r d hrec hd =>
    have hr : r ∈ dir.run.records := by simp [hrec]
    obtain ⟨lines, row, hl, hraw, hsame⟩ := h.log hr
    have hr' : { r with measurement := d } ∈ before ++ { r with measurement := d } :: after := by
      simp
    obtain ⟨lines', row', hl', hraw', hsame'⟩ := h'.log hr'
    obtain rfl := Option.some.inj (hl.symm.trans hl')
    obtain rfl := List.singleton_inj.mp (hraw.symm.trans hraw')
    rw [same_trans (same_symm hsame) hsame'] at hd
    cases hd
  | @setLogField before after r d d' hr hl hd =>
    obtain ⟨row, row', hraw, hraw', hsame⟩ := changed_log h.toVerified hr hl h'
    obtain ⟨-, rfl, -⟩ := raw_eq_singleton hraw
    obtain ⟨-, rfl, -⟩ := raw_eq_singleton hraw'
    rw [hsame] at hd
    cases hd
  | @dropLine before after r d hr hl =>
    obtain ⟨row, row', hraw, hraw', -⟩ := changed_log h.toVerified hr hl h'
    have hlen := congrArg List.length hraw
    have hlen' := congrArg List.length hraw'
    rw [raw_split] at hlen
    rw [raw, List.filterMap_append] at hlen'
    simp only [List.length_append, List.length_cons, List.length_nil, ← raw.eq_1] at hlen hlen'
    omega
  | @copyLine before after r d hr hl hd =>
    obtain ⟨row, row', hraw, hraw', -⟩ := changed_log h.toVerified hr hl h'
    have hlen := congrArg List.length hraw
    have hlen' := congrArg List.length hraw'
    rw [raw_split] at hlen'
    rw [raw, List.filterMap_append] at hlen
    simp only [List.length_append, List.length_cons, List.length_nil, ← raw.eq_1] at hlen hlen'
    omega
  | @dropRow before after row hs =>
    obtain rfl := Except.ok.inj (h.scan.symm.trans h'.scan)
    have hcount := h.count.trans h'.count.symm
    simp [hs] at hcount
  | @copyRow before after row hs hr =>
    obtain rfl := Except.ok.inj (h.scan.symm.trans h'.scan)
    have hcount := h.count.trans h'.count.symm
    simp [hs] at hcount
  | @setKey before after row key hs hk =>
    obtain rfl := Except.ok.inj (h.scan.symm.trans h'.scan)
    -- The new key is a point of the records, so another row has it.
    have hmem : { row with key := key } ∈ before ++ { row with key := key } :: after := by simp
    have hold := h.mem_rows (h'.mem_keys hmem)
    have hn : ((before ++ { row with key := key } :: after).map Row.key).Nodup := h'.keys
    rw [List.map_append, List.map_cons, List.nodup_middle, ← List.map_append] at hn
    apply (List.nodup_cons.mp hn).1
    rw [hs, List.map_append, List.map_cons, List.mem_append, List.mem_cons] at hold
    rw [List.map_append, List.mem_append]
    exact hold.imp_right fun hor => hor.resolve_left hk
  | @setNumber before after row front back q q' hs hn hq =>
    obtain rfl := Except.ok.inj (h.scan.symm.trans h'.scan)
    have hrow : row ∈ dir.summary := by simp [hs]
    have hmem : { row with numbers := front ++ q' :: back } ∈
        before ++ { row with numbers := front ++ q' :: back } :: after := by simp
    obtain ⟨-, -, hclose⟩ := checkPoint_eq_ok.mp (h'.points _ hmem)
    change closeNumbers (front ++ q' :: back) _ = true at hclose
    rw [← h.exactRows row hrow, hn] at hclose
    exact absurd (closeNumbers_split hclose) (not_le_of_gt hq)

theorem raises (h : Recorded dir pairs) (ha : Altered dir dir') :
    ∃ e, loadRuns [dir'] = .error e := by
  apply raises_of_ne_ok
  intro rows hrows
  obtain ⟨⟨pairs', h'⟩, -⟩ := loadRuns_single.mp hrows
  exact h.not_verified ha h'

end Recorded

end Shaper.Measurements

import Cs162.KvServer

/-!
# What a follower's log holds

An entry of the log is loaded back as it was logged (`LogEntry.load_dump`), and iterating a log
whose files are `0.log .. (n-1).log` loads each of them in order (`tpclogIterate_dense`).
-/

namespace Cs162

open CLib

theorem log_injective : Function.Injective FileName.log := fun _ _ he => by injection he

/-! ## Entries -/

theorem ofCode_code {type : MsgType} (h : type.loggable = true) :
    MsgType.ofCode type.code = type := by
  cases type <;> first | rfl | cases h

theorem code_lt {type : MsgType} (h : type.loggable = true) : type.code < 256 ^ 4 := by
  cases type <;> first | decide | cases h

theorem LogEntry.load_dump {e : LogEntry} (ht : e.type.loggable = true)
    (hlen : e.length = e.data.length) (hlt : e.length < 256 ^ 4) : load e.dump = some e := by
  have hhead : e.dump.take 4 = leBytes 4 e.type.code := by
    rw [dump, List.append_assoc, List.take_left' (length_leBytes _ _)]
  have hmid : (e.dump.drop 4).take 4 = leBytes 4 e.length := by
    rw [dump, List.append_assoc, List.drop_left' (length_leBytes _ _),
      List.take_left' (length_leBytes _ _)]
  have htail : e.dump.drop sizeofLogentry = e.data :=
    List.drop_left' (by simp [sizeofLogentry])
  have hsize : e.dump.length = sizeofLogentry + e.length := by
    simp only [dump, sizeofLogentry, hlen, List.length_append, length_leBytes]
  simp only [load, hhead, hmid, htail, hsize, leNat_leBytes_of_lt hlt,
    leNat_leBytes_of_lt (code_lt ht), ofCode_code ht]
  rw [if_neg (by omega), if_neg (by omega), List.take_of_length_le hlen.ge]

/-- The request's strings fit a log entry, whose `length` is an `int`. -/
def KvRequest.Fits (req : KvRequest) : Prop :=
  req.key.elim 0 (·.strlen + 1) + req.val.elim 0 (·.strlen + 1) < 2 ^ 31

instance (req : KvRequest) : Decidable req.Fits := inferInstanceAs (Decidable (_ < 2 ^ 31))

/-- What an entry records of the request it was made for. -/
def Records (e : Option LogEntry) (req : KvRequest) : Prop :=
  ∃ e', e = some e' ∧ e'.type = req.type ∧
    (req.type = .putreq ∨ req.type = .delreq → req.key = some e'.key) ∧
    (req.type = .putreq → req.val = some e'.value)

theorem LogEntry.make_records {req : KvRequest} {e : LogEntry}
    (h : LogEntry.make req.type req.key req.val = some e) : Records (some e) req := by
  refine ⟨e, rfl, ?_⟩
  rcases req with ⟨type, _ | k, _ | v⟩ <;> cases type <;>
    simp_all [LogEntry.make] <;> subst h <;>
    simp [LogEntry.key, LogEntry.value, cstr_append_nul, cstr_layout]

theorem LogEntry.make_length {type : MsgType} {key value : Option CStr} {e : LogEntry}
    (h : LogEntry.make type key value = some e) : e.length = e.data.length := by
  rcases key with _ | k <;> rcases value with _ | v <;> cases type <;>
    simp_all [LogEntry.make] <;> subst h <;> simp

theorem LogEntry.make_facts {req : KvRequest} {e : LogEntry} (hr : req.Fits)
    (h : LogEntry.make req.type req.key req.val = some e) :
    e.type = req.type ∧ e.length = e.data.length ∧ e.length < 256 ^ 4 := by
  refine ⟨?_, make_length h, ?_⟩
  · obtain ⟨_, ⟨rfl⟩, htype, -⟩ := make_records h
    exact htype
  · unfold KvRequest.Fits at hr
    rcases req with ⟨type, _ | k, _ | v⟩ <;> cases type <;>
      simp_all [LogEntry.make] <;> subst h <;> simp <;> omega

theorem load_make {req : KvRequest} {e : LogEntry} (hr : req.Fits)
    (ht : req.type.loggable = true) (h : LogEntry.make req.type req.key req.val = some e) :
    LogEntry.load e.dump = some e := by
  obtain ⟨htype, hlen, hlt⟩ := LogEntry.make_facts hr h
  exact LogEntry.load_dump (by rwa [htype]) hlen hlt

/-! ## Iteration -/

variable {d : Dir}

theorem tpclogIterateLoop_dense {n : ℕ} (hn : d.Dense .log n) :
    ∀ fuel (log : TpcLog), log.iterpos ≤ n → n ≤ log.iterpos + fuel →
      tpclogIterateLoop d fuel log
        = (List.range' log.iterpos (n - log.iterpos)).map
            fun i => (d.lookup (.log i)).bind fun f => LogEntry.load f.bytes
  | 0, log, h1, h2 => by
    rw [show n - log.iterpos = 0 by omega]
    rfl
  | fuel + 1, log, h1, h2 => by
    simp only [tpclogIterateLoop]
    by_cases hlt : log.iterpos < n
    · obtain ⟨f, hf⟩ := hn.lookup_some hlt
      have hnext : tpclogIterateHasNext d log = true := (hn _).2 hlt
      rw [if_pos hnext, show n - log.iterpos = n - (log.iterpos + 1) + 1 by omega,
        List.range'_succ, List.map_cons]
      simp only [tpclogIterateNext, hf, Option.bind_some]
      rw [tpclogIterateLoop_dense hn fuel { log with iterpos := log.iterpos + 1 } hlt
        (by simp only; omega)]
    · have hnext : ¬ tpclogIterateHasNext d log = true := fun h => hlt ((hn _).1 h)
      rw [if_neg hnext, show n - log.iterpos = 0 by omega]
      rfl

/-- Iterating a log of `n` entries loads each, oldest first. -/
theorem tpclogIterate_dense {n : ℕ} (hn : d.Dense .log n) (log : TpcLog) :
    tpclogIterate d log
      = (List.range n).map fun i => (d.lookup (.log i)).bind fun f => LogEntry.load f.bytes := by
  have hcard := d.card_le_of_stat log_injective (Finset.range n) fun j hj =>
    (hn j).2 (Finset.mem_range.1 hj)
  rw [Finset.card_range] at hcard
  rw [tpclogIterate, tpclogIterateLoop_dense hn _ _ (Nat.zero_le n)
    (by simp only [tpclogIterateBegin]; omega)]
  simp [tpclogIterateBegin, List.range_eq_range']

end Cs162

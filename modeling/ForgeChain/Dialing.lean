import ForgeChain.Boundary
import ForgeChain.Fifo
import ForgeChain.Runs

/-!
The address book as the scheduler of the dials: any threads add addresses, take
candidates and report how the dials went, in any order, with any readings of the
clock. What one call does to the entry of an address is said once (`Turn`); what
the whole history allows follows from it (`dials_disciplined`). Reports about an
address that is not in the book are dropped, so they count for nothing once it
is added (`early_reports_forgotten`).
-/
namespace ForgeChain.Dialing
open Runs AddressBook

/-- A call on the book, with the reading of the clock. -/
inductive BookCall where
  | add (now : Nat) (address : PeerAddress) (trusted : Bool)
  | selectCandidate (now : Nat)
  | markSuccess (now : Nat) (address : PeerAddress)
  | markFailure (now : Nat) (address : PeerAddress)

def after (book : AddressBook) : BookCall → AddressBook
  | .add now address trusted => (book.add now address trusted).2
  | .selectCandidate now => (book.selectCandidate now).2
  | .markSuccess now address => book.markSuccess now address
  | .markFailure now address => book.markFailure now address

/-- The call reports how a dial of the address went. -/
def BookCall.Marks (address : PeerAddress) : BookCall → Prop
  | .add .. => False
  | .selectCandidate _ => False
  | .markSuccess _ marked => marked = address
  | .markFailure _ marked => marked = address

/-! ### One entry of the book -/

section
variable {changed : AddressEntry → AddressEntry} {entries : List AddressEntry} {property : AddressEntry → Bool}
  {entry : AddressEntry}

theorem map_change (keeps : ∀ entry, (changed entry).address = entry.address) :
    (change property changed entries).map AddressEntry.address = entries.map AddressEntry.address := by
  induction entries with
  | nil => rfl
  | cons first rest ih =>
    rw [change]
    split
    · simp [keeps]
    · simp [ih]

/-- Changing the entry of an address changes what is found for it. -/
theorem find_change (keeps : ∀ entry, (changed entry).address = entry.address) (marked address : PeerAddress) :
    (change (·.address = marked) changed entries).find? (·.address = address) =
      if marked = address then (entries.find? (·.address = address)).map changed
      else entries.find? (·.address = address) := by
  induction entries with
  | nil => simp [change]
  | cons first rest ih =>
    rw [change]
    by_cases here : first.address = marked
    · by_cases same : marked = address
      · simp [here,same,keeps]
      · simp [here,same,keeps]
    · by_cases other : first.address = address
      · subst other
        simp [here,Ne.symm here]
      · simp [here,other,ih]

/-- The first entry with a property is changed as the one of its address. -/
theorem change_found (distinct : (entries.map AddressEntry.address).Nodup)
    (found : entries.find? property = some entry) :
    change property changed entries = change (·.address = entry.address) changed entries := by
  induction entries with
  | nil => cases found
  | cons first rest ih =>
    obtain ⟨new,distinct⟩ := List.nodup_cons.mp distinct
    by_cases here : property first
    · rw [List.find?_cons_of_pos here] at found
      obtain rfl := Option.some.inj found
      simp [change,here]
    · rw [List.find?_cons_of_neg here] at found
      have apart : first.address ≠ entry.address := fun same =>
        new (same ▸ List.mem_map_of_mem (List.mem_of_find?_eq_some found))
      simp [change,here,apart,ih distinct found]

theorem change_none (nothing : entries.find? property = none) : change property changed entries = entries := by
  induction entries with
  | nil => rfl
  | cons first rest ih =>
    rw [List.find?_cons] at nothing
    split at nothing
    · cases nothing
    · simp_all [change]

end

/-! ### One call -/

section
variable {book : AddressBook} {call : BookCall} {address : PeerAddress} {entry : AddressEntry}

theorem mem_addresses : address ∈ book.addresses ↔ ∃ entry, book.find address = some entry := by
  rw [← Option.isSome_iff_exists,← Option.ne_none_iff_isSome,ne_eq,find_eq_none,not_not]

/-- A candidate has an entry that is due. -/
theorem due_of_selected (distinct : book.addresses.Nodup) {now : Nat}
    (selected : (book.selectCandidate now).1 = some address) :
    ∃ entry, book.find address = some entry ∧ Due now entry := by
  obtain ⟨entry,first,rfl⟩ := Option.map_eq_some_iff.mp selected
  exact ⟨entry,Fifo.find_of_mem distinct (List.mem_of_find?_eq_some first),by simpa using List.find?_some first⟩

/-- What a call leaves of the entry of an address. -/
inductive Turn (book : AddressBook) (address : PeerAddress) (entry : AddressEntry) : BookCall → AddressEntry → Prop
  | succeeded (now : Nat) : Turn book address entry (.markSuccess now address)
    { entry with inProgress := false,succeeded := true,failures := 0,nextTry := now + baseBackoff }
  | failed (now : Nat) : Turn book address entry (.markFailure now address)
    { entry with
      inProgress := false,failures := entry.failures + 1,nextTry := now + backoff (entry.failures + 1) }
  | selected {now : Nat} (returned : (book.selectCandidate now).1 = some address) :
    Turn book address entry (.selectCandidate now) { entry with inProgress := true }
  | kept {call : BookCall} (unmarked : ¬call.Marks address)
    (passed : ∀ now, call = .selectCandidate now → (book.selectCandidate now).1 ≠ some address) :
    Turn book address entry call entry

/-- An entry stays in the book, whatever is called. -/
theorem turn_after (distinct : book.addresses.Nodup) (found : book.find address = some entry) (call : BookCall) :
    ∃ entry', (after book call).find address = some entry' ∧ Turn book address entry call entry' := by
  cases call with
  | add now new trusted =>
    refine ⟨entry,?_,.kept (fun marks => marks) (by simp)⟩
    cases add_cases book now new trusted with
    | refused run => simpa [after,run] using found
    | added named admitted room absent run =>
      simp only [after,run,find] at found ⊢
      rw [List.find?_append,found,Option.some_or]
  | selectCandidate now =>
    rcases first : book.book.find? (Due now ·) with _ | candidate
    · refine ⟨entry,?_,.kept (fun marks => marks) (by rintro _ ⟨⟩; simp [selectCandidate,first])⟩
      simpa [after,selectCandidate,change_none first] using found
    · have returned : (book.selectCandidate now).1 = some candidate.address := by simp [selectCandidate,first]
      simp only [after,selectCandidate,find,change_found distinct first,find_change,implies_true] at found ⊢
      rw [found]
      by_cases same : candidate.address = address
      · exact ⟨_,if_pos same,.selected (returned.trans (congrArg some same))⟩
      · refine ⟨entry,if_neg same,.kept (fun marks => marks) ?_⟩
        rintro _ ⟨⟩ other
        exact same (Option.some.inj (returned.symm.trans other))
  | markSuccess now marked =>
    simp only [after,markSuccess,find,find_change,implies_true] at found ⊢
    rw [found]
    by_cases same : marked = address
    · subst same
      exact ⟨_,if_pos rfl,.succeeded now⟩
    · exact ⟨entry,if_neg same,.kept same (by simp)⟩
  | markFailure now marked =>
    simp only [after,markFailure,find,find_change,implies_true] at found ⊢
    rw [found]
    by_cases same : marked = address
    · subst same
      exact ⟨_,if_pos rfl,.failed now⟩
    · exact ⟨entry,if_neg same,.kept same (by simp)⟩

/-- A call keeps the addresses of the book or adds one. -/
inductive Grows (book : AddressBook) (call : BookCall) : Prop
  | kept (same : (after book call).addresses = book.addresses)
  | added {now : Nat} {new : PeerAddress} (room : book.book.length < maxEntries) (absent : new ∉ book.addresses)
    (entries : (after book call).book = book.book ++ [⟨new,now,0,false,false⟩])

theorem grows_after (book : AddressBook) (call : BookCall) : Grows book call := by
  cases call with
  | add now new trusted =>
    cases add_cases book now new trusted with
    | refused run => exact .kept (by rw [after,run])
    | added named admitted room absent run => exact .added room absent (by rw [after,run])
  | selectCandidate now => exact .kept (map_change fun _ => rfl)
  | markSuccess now marked => exact .kept (map_change fun _ => rfl)
  | markFailure now marked => exact .kept (map_change fun _ => rfl)

/-- No address comes twice, and the book does not grow above its limit. -/
structure Orderly (book : AddressBook) : Prop where
  distinct : book.addresses.Nodup
  bounded : book.book.length ≤ maxEntries

theorem orderly_empty : Orderly .empty := ⟨List.nodup_nil,Nat.zero_le _⟩

theorem Orderly.after (orderly : Orderly book) (call : BookCall) : Orderly (after book call) := by
  cases grows_after book call with
  | kept same =>
    refine ⟨same ▸ orderly.distinct,?_⟩
    have lengths := congrArg List.length same
    rw [addresses,addresses,List.length_map,List.length_map] at lengths
    exact lengths ▸ orderly.bounded
  | added room absent entries =>
    rw [addresses] at absent
    refine ⟨?_,?_⟩
    · rw [addresses,entries,List.map_append]
      exact orderly.distinct.append (List.nodup_singleton _) (List.disjoint_singleton.mpr absent)
    · rw [entries,List.length_append]
      exact room

/-- A new entry has no failures. -/
theorem failures_new (absent : book.find address = none) (found : (after book call).find address = some entry) :
    entry.failures = 0 := by
  cases grows_after book call with
  | kept same =>
    rw [find_eq_none,← same,← find_eq_none,found] at absent
    cases absent
  | added room missing entries =>
    rw [find] at absent found
    rw [entries,List.find?_append,absent,Option.none_or] at found
    rw [List.mem_singleton.mp (List.mem_of_find?_eq_some found)]

/-! ### The history -/

/-- The failures of an address since its last success, after a call. -/
def recount (address : PeerAddress) (count : Nat) : BookCall → Nat
  | .add .. => count
  | .selectCandidate _ => count
  | .markSuccess _ marked => if marked = address then 0 else count
  | .markFailure _ marked => if marked = address then count + 1 else count

theorem recount_unmarked {count : Nat} (unmarked : ¬call.Marks address) : recount address count call = count := by
  cases call with
  | add now new trusted => rfl
  | selectCandidate now => rfl
  | markSuccess now marked => exact if_neg unmarked
  | markFailure now marked => exact if_neg unmarked

theorem recount_le (address : PeerAddress) (count : Nat) (call : BookCall) :
    recount address count call ≤ count + 1 := by
  cases call with
  | add now new trusted => exact Nat.le_succ count
  | selectCandidate now => exact Nat.le_succ count
  | markSuccess now marked => rw [recount]; split <;> omega
  | markFailure now marked => rw [recount]; split <;> omega

/-- The book and the failures of an address. What is reported before the address
    is in the book does not count. -/
def watch (address : PeerAddress) (s : AddressBook × Nat) (call : BookCall) : AddressBook × Nat :=
  (after s.1 call,if address ∈ s.1.addresses then recount address s.2 call else s.2)

/-- The failures of an address since its last success, over a history. -/
def failuresOf (address : PeerAddress) (calls : List BookCall) : Nat := (run (watch address) (.empty,0) calls).2

/-- The entry of the address has the failures that were counted. -/
structure Counts (address : PeerAddress) (s : AddressBook × Nat) : Prop where
  orderly : Orderly s.1
  present : ∀ entry, s.1.find address = some entry → entry.failures = s.2
  absent : s.1.find address = none → s.2 = 0

theorem counts_empty (address : PeerAddress) : Counts address (.empty,0) :=
  ⟨orderly_empty,by simp [find,empty],fun _ => rfl⟩

theorem Counts.watch {s : AddressBook × Nat} (counts : Counts address s) (call : BookCall) :
    Counts address (watch address s call) := by
  obtain ⟨book,count⟩ := s
  rcases found : book.find address with _ | entry
  · have missing : address ∉ book.addresses := find_eq_none.mp found
    have none_yet : count = 0 := counts.absent found
    refine ⟨counts.orderly.after call,fun entry late => ?_,fun _ => ?_⟩
    · simp only [Dialing.watch,missing,if_false,none_yet]
      exact failures_new found late
    · simp [Dialing.watch,missing,none_yet]
  · have there : address ∈ book.addresses := mem_addresses.mpr ⟨entry,found⟩
    have so_far : entry.failures = count := counts.present entry found
    obtain ⟨entry',late,turn⟩ := turn_after counts.orderly.distinct found call
    refine ⟨counts.orderly.after call,fun other finds => ?_,fun nothing => ?_⟩
    · obtain rfl := Option.some.inj (late.symm.trans finds)
      simp only [Dialing.watch,there,if_true]
      cases turn with
      | succeeded now => simp [recount]
      | failed now => simp [recount,so_far]
      | selected returned => exact so_far
      | kept unmarked passed => rwa [recount_unmarked unmarked]
    · cases late.symm.trans nothing

theorem run_watch (calls : List BookCall) (book : AddressBook) (count : Nat) :
    (run (watch address) (book,count) calls).1 = run after book calls := by
  induction calls generalizing book count with
  | nil => rfl
  | cons call rest ih => exact ih _ _

theorem counts_run (address : PeerAddress) (calls : List BookCall) :
    Counts address (run after .empty calls,failuresOf address calls) := by
  have counts := run_keeps (fun _ call counts => counts.watch call) calls (counts_empty address)
  rwa [← run_watch calls .empty 0]

theorem orderly_run (calls : List BookCall) : Orderly (run after .empty calls) :=
  run_keeps (fun _ call orderly => orderly.after call) calls orderly_empty

/-- Every failure is one of the calls. -/
theorem failuresOf_le (address : PeerAddress) (calls : List BookCall) : failuresOf address calls ≤ calls.length := by
  suffices grows : ∀ s : AddressBook × Nat, (run (watch address) s calls).2 ≤ s.2 + calls.length by
    simpa [failuresOf] using grows (.empty,0)
  induction calls with
  | nil => exact fun s => le_rfl
  | cons call rest ih =>
    intro s
    have once : (watch address s call).2 ≤ s.2 + 1 := by
      rw [watch]
      split
      · exact recount_le address s.2 call
      · exact Nat.le_succ s.2
    have later := ih (watch address s call)
    rw [run_cons,List.length_cons]
    omega

/-- The entry of an address over calls that do not report about it. -/
theorem unmarked_run (orderly : Orderly book) (found : book.find address = some entry) {middle : List BookCall}
    (unmarked : ∀ call ∈ middle, ¬call.Marks address) :
    ∃ entry', (run after book middle).find address = some entry' ∧ entry'.nextTry = entry.nextTry ∧
      (entry.inProgress = true → entry'.inProgress = true) := by
  induction middle generalizing book entry with
  | nil => exact ⟨entry,found,rfl,id⟩
  | cons call rest ih =>
    obtain ⟨here,later⟩ := List.forall_mem_cons.mp unmarked
    obtain ⟨next,late,turn⟩ := turn_after orderly.distinct found call
    obtain ⟨last,finds,try_at,busy⟩ := ih (orderly.after call) late later
    refine ⟨last,finds,?_⟩
    cases turn with
    | succeeded now => exact absurd rfl here
    | failed now => exact absurd rfl here
    | selected returned => exact ⟨try_at,fun _ => busy rfl⟩
    | kept _ passed => exact ⟨try_at,busy⟩

theorem failuresOf_failed {before : List BookCall} (there : address ∈ (run after .empty before).addresses) (now : Nat) :
    failuresOf address (before ++ [.markFailure now address]) = failuresOf address before + 1 := by
  rw [← run_watch before .empty 0] at there
  rw [failuresOf,run_append,run_cons,run_nil,watch,if_pos there,recount,if_pos rfl]
  rfl

theorem backoff_eq (failures : Nat) : backoff failures = seconds (min (5 * 2 ^ min (failures - 1) 7) 600) := by
  rw [backoff,baseBackoff,maxBackoff,seconds,seconds,seconds,← Nat.mul_min_mul_right,Nat.mul_right_comm]

/-- After a report the address is left alone. -/
theorem waits_after_mark {before middle : List BookCall} {mark : BookCall} {until_then now : Nat}
    (there : address ∈ (run after .empty before).addresses)
    (turns : ∀ entry entry', entry.failures = failuresOf address before →
      Turn (run after .empty before) address entry mark entry' → entry'.nextTry = until_then)
    (unmarked : ∀ call ∈ middle, ¬call.Marks address)
    (selected : ((run after .empty (before ++ mark :: middle)).selectCandidate now).1 = some address) :
    until_then ≤ now := by
  have counts := counts_run address before
  obtain ⟨entry,found⟩ := mem_addresses.mp there
  obtain ⟨marked,late,turn⟩ := turn_after counts.orderly.distinct found mark
  -- No call in between moves the time of the next try.
  obtain ⟨last,finds,try_at,-⟩ := unmarked_run (counts.orderly.after mark) late unmarked
  have orderly := orderly_run (before ++ mark :: middle)
  obtain ⟨due,same,-,-,in_time⟩ := due_of_selected orderly.distinct selected
  rw [run_append,run_cons,finds] at same
  obtain rfl := Option.some.inj same
  rwa [try_at,turns entry marked (counts.present entry found) turn] at in_time

/-- An address that was handed out is not handed out again before a report. -/
theorem marked_between {before middle : List BookCall} {now now' : Nat}
    (first : ((run after .empty before).selectCandidate now).1 = some address)
    (second : ((run after .empty (before ++ .selectCandidate now :: middle)).selectCandidate now').1 = some address) :
    ∃ call ∈ middle, call.Marks address := by
  by_contra none_between
  have unmarked : ∀ call ∈ middle, ¬call.Marks address := fun call member marks => none_between ⟨call,member,marks⟩
  have start := orderly_run before
  have orderly := orderly_run (before ++ .selectCandidate now :: middle)
  obtain ⟨entry,found,-⟩ := due_of_selected start.distinct first
  obtain ⟨dialed,late,turn⟩ := turn_after start.distinct found (.selectCandidate now)
  -- The entry stays in progress, and such an entry is not due.
  obtain ⟨last,finds,-,busy⟩ := unmarked_run (start.after (.selectCandidate now)) late unmarked
  obtain ⟨due,same,idle,-⟩ := due_of_selected orderly.distinct second
  rw [run_append,run_cons,finds] at same
  obtain rfl := Option.some.inj same
  cases turn with
  | selected returned =>
    rw [busy rfl] at idle
    cases idle
  | kept _ passed => exact passed now rfl first

/-- Whatever is called on a book: between two dials of an address its outcome is
    reported; an address with too many failures is not dialed; after a report an
    address is left alone for the backoff, or for five seconds after a success;
    and the book keeps within its size, with every address once. Failures count
    from when the address is in the book, and there are no more of them than
    calls. -/
theorem dials_disciplined (calls : List BookCall) :
    let book := run after .empty calls
    (∀ before middle now now' address, calls = before ++ .selectCandidate now :: middle →
      ((run after .empty before).selectCandidate now).1 = some address →
      (book.selectCandidate now').1 = some address → ∃ call ∈ middle, call.Marks address) ∧
    (∀ now address, (book.selectCandidate now).1 = some address → failuresOf address calls < maxFailures) ∧
    (∀ before middle now now' address, calls = before ++ .markFailure now address :: middle →
      address ∈ (run after .empty before).addresses → (∀ call ∈ middle, ¬call.Marks address) →
      (book.selectCandidate now').1 = some address →
      now + seconds (min (5 * 2 ^ min (failuresOf address (before ++ [.markFailure now address]) - 1) 7) 600) ≤ now') ∧
    (∀ before middle now now' address, calls = before ++ .markSuccess now address :: middle →
      address ∈ (run after .empty before).addresses → (∀ call ∈ middle, ¬call.Marks address) →
      (book.selectCandidate now').1 = some address → now + seconds 5 ≤ now') ∧
    book.book.length ≤ maxEntries ∧ book.addresses.Nodup ∧
    ∀ entry ∈ book.book, entry.failures = failuresOf entry.address calls ∧ entry.failures ≤ calls.length := by
  intro book
  have orderly : Orderly book := orderly_run calls
  refine ⟨?_,?_,?_,?_,orderly.bounded,orderly.distinct,?_⟩
  · intro before middle now now' address split first second
    subst split
    exact marked_between first second
  · intro now address selected
    obtain ⟨entry,found,-,few,-⟩ := due_of_selected orderly.distinct selected
    rwa [(counts_run address calls).present entry found] at few
  · intro before middle now now' address split there unmarked selected
    subst split
    refine waits_after_mark there (fun entry entry' count turn => ?_) unmarked selected
    rw [failuresOf_failed there,← backoff_eq,← count]
    cases turn with
    | failed now => rfl
    | kept no_mark _ => exact absurd rfl no_mark
  · intro before middle now now' address split there unmarked selected
    subst split
    refine waits_after_mark there (fun entry entry' count turn => ?_) unmarked selected
    cases turn with
    | succeeded now => rfl
    | kept no_mark _ => exact absurd rfl no_mark
  · intro entry member
    have count := (counts_run entry.address calls).present entry (Fifo.find_of_mem orderly.distinct member)
    exact ⟨count,count ▸ failuresOf_le entry.address calls⟩

end

/-- An address in the net for tests. -/
def distant : PeerAddress := ⟨dottedQuad 203 0 113 9,9000⟩

/-- Ten failures that are reported before the address is added do not keep it
    from being dialed, nor does a success. -/
theorem early_reports_forgotten :
    ((run after .empty (List.replicate 10 (.markFailure 0 distant) ++ [.add 0 distant false])).selectCandidate 0).1 =
        some distant ∧
      ((run after .empty [.markSuccess 0 distant,.add 0 distant false]).selectCandidate 0).1 = some distant := by
  decide +kernel

/-- Dialed, reported as failed, and dialed again after five seconds. -/
example :
    let calls := [.add 0 distant false,.selectCandidate 0,.markFailure 0 distant]
    ((run after .empty calls).selectCandidate (seconds 5 - 1)).1 = none ∧
      ((run after .empty calls).selectCandidate (seconds 5)).1 = some distant := by
  decide +kernel

end ForgeChain.Dialing

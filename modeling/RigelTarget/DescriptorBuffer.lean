import RigelTarget.RingBuffer
import Mathlib.Data.Nat.Bitwise

/-!
# The descriptor buffer of lazy coherence

Tasks leave the descriptors of what they touched in a ring of 1024 entries, to be written back
and invalidated later. An add to a full ring handles the oldest entry, or all entries when the
library is built with `DESCRIPTOR_BUFFER_EMPTY_ALL`. The plain version of the library selects
the actions by a `switch` over the flags, written out in two places; the fancy version calls
`handle_descriptor`, which tests the bits and calls the functions of the buffer. Both keep a
queue: what was handled and what is in the ring, in this order, is what was added.
-/

namespace RigelTarget.DescriptorBuffer

open RingBuffer

/-- `rtm_range_t`: the four words of a descriptor. What they mean is up to the client. -/
structure Range where
  /-- `v1.v1`. -/
  v1 : ℕ
  /-- `v2.v2`. -/
  v2 : ℕ
  /-- `v3.v3`. -/
  v3 : ℕ
  /-- `v4.v4`. -/
  v4 : ℕ
  deriving DecidableEq

/-- What is done with a descriptor. The observable behaviour of the buffer is the list of these. -/
inductive Action where
  /-- `WRITEBACK_DESCRIPTOR`, or a call of `wb`. -/
  | writeback (r : Range)
  /-- `INVALIDATE_DESCRIPTOR`, or a call of `inv`. -/
  | invalidate (r : Range)
  deriving DecidableEq

/-- `DESCRIPTOR_BUFFER_SIZE`: the entries of the ring, of which one always stays free. -/
abbrev bufferSize : ℕ := 1024

/-- `DESCRIPTOR_BUFFER_MASK`. The size is a power of two, so the mask wraps an index around. -/
abbrev bufferMask : ℕ := bufferSize-1

/-- `DESCRIPTOR_BUFFER_HANDLES_WRITEBACK`: the bit of the flags for a write-back of each entry. -/
abbrev handlesWriteback : ℕ := 1

/-- `DESCRIPTOR_BUFFER_HANDLES_INVALIDATE`: the bit of the flags for an invalidation. Both may be
set. -/
abbrev handlesInvalidate : ℕ := 2

/-- `descriptor_buffer`: the ring with its head, its tail and the flags that tell what is done with
an entry. -/
structure Buffer where
  /-- `list`. -/
  list : ℕ → Range
  /-- `head`. -/
  head : ℕ
  /-- `tail`. -/
  tail : ℕ
  /-- `flags`. -/
  flags : ℕ

/-- The two versions of the library, which select the actions for a descriptor in different ways. -/
inductive Version where
  /-- `descriptor_buffer.c`. -/
  | plain
  /-- `descriptor_buffer_fancy.c`. -/
  | fancy
  deriving DecidableEq

/-- `init_descriptor_buffer`; the entries keep what memory held, and the empty ring starts at index
zero. -/
def initDescriptorBuffer (memory : ℕ → Range) (inflags : ℕ) : Buffer := ⟨memory,0,0,inflags⟩

/-- The `switch` over the flags in `descriptor_buffer.c`. With both bits set the write-back comes
first. -/
def switchFlags (flags : ℕ) (r : Range) : List Action :=
  if flags=0 then []
  else if flags=handlesWriteback then [.writeback r]
  else if flags=handlesInvalidate then [.invalidate r]
  else if flags=handlesWriteback|||handlesInvalidate then [.writeback r,.invalidate r]
  else []

/-- `handle_descriptor` in `descriptor_buffer_fancy.c`: one test for each bit, again with the
write-back first. -/
def handleDescriptor (flags : ℕ) (r : Range) : List Action :=
  (if flags&&&handlesWriteback≠0 then [.writeback r] else [])++
    (if flags&&&handlesInvalidate≠0 then [.invalidate r] else [])

/-- The actions of a version on one descriptor. This is all in which the versions differ. -/
def actions : Version → ℕ → Range → List Action
  | .plain => switchFlags
  | .fancy => handleDescriptor

/-- A handled descriptor and the actions on it. There are none when no bit of the flags is set, and
the descriptor is dropped all the same. -/
abbrev Handled := Range×List Action

/-- The oldest entry is handled and dropped: the tail goes on by one. The entry itself stays in
memory. -/
def handleTail (version : Version) (buf : Buffer) : Buffer×Handled :=
  ({ buf with tail := (buf.tail+1)&&&bufferMask },
    (buf.list buf.tail,actions version buf.flags (buf.list buf.tail)))

/-- The loop of `empty_all_descriptors`; `none` when the fuel does not suffice. It takes the entries
in the order in which they were added. -/
def emptyLoop (version : Version) : ℕ → Buffer → Option (Buffer×List Handled)
  | 0, buf => if buf.tail=buf.head then some (buf,[]) else none
  | fuel+1, buf =>
    if buf.tail=buf.head then some (buf,[])
    else
      let handled := handleTail version buf
      (emptyLoop version fuel handled.1).map fun r => (r.1,handled.2::r.2)

/-- `empty_all_descriptors`. Its loop ends when the tail has reached the head. -/
def emptyAllDescriptors (version : Version) (buf : Buffer) : Option (Buffer×List Handled) :=
  if buf.head=buf.tail then some (buf,[]) else emptyLoop version bufferSize buf

/-- The store of a descriptor at the head, word by word, after which the head goes on by one. -/
def storeHead (buf : Buffer) (desc : Range) : Buffer :=
  { buf with
    list := Function.update buf.list buf.head ⟨desc.v1,desc.v2,desc.v3,desc.v4⟩
    head := (buf.head+1)&&&bufferMask }

/-- `add_descriptor`, built with or without `DESCRIPTOR_BUFFER_EMPTY_ALL`. A full ring first makes
room, by one entry or by all. -/
def addDescriptor (version : Version) (emptyAll : Bool) (buf : Buffer) (desc : Range) :
    Option (Buffer×List Handled) :=
  if (buf.head+1)&&&bufferMask=buf.tail then
    if emptyAll=true then
      (emptyAllDescriptors version buf).map fun r => (storeHead r.1 desc,r.2)
    else
      let handled := handleTail version buf
      some (storeHead handled.1 desc,[handled.2])
  else some (storeHead buf desc,[])

/-- The calls of a client. -/
inductive Op where
  /-- `add_descriptor`. -/
  | add (desc : Range)
  /-- `empty_all_descriptors`. -/
  | emptyAll
  deriving DecidableEq

/-- One call, with the descriptors that it handles. -/
def exec (version : Version) (emptyAll : Bool) (buf : Buffer) : Op → Option (Buffer×List Handled)
  | .add desc => addDescriptor version emptyAll buf desc
  | .emptyAll => emptyAllDescriptors version buf

/-- A sequence of calls; what was handled is collected in order. -/
def run (version : Version) (emptyAll : Bool) (buf : Buffer) : List Op →
    Option (Buffer×List Handled)
  | [] => some (buf,[])
  | op::ops => (exec version emptyAll buf op).bind fun r =>
      (run version emptyAll r.1 ops).map fun q => (q.1,r.2++q.2)

/-- The descriptors that a sequence of calls adds, in the order of the calls. -/
def added : List Op → List Range
  | [] => []
  | .add desc::ops => desc::added ops
  | .emptyAll::ops => added ops

/-- The entries from the tail to the head, the oldest first: what was added and is not handled
yet. -/
def contentsOf (buf : Buffer) : List Range := contents buf.list bufferSize buf.head buf.tail

/-- A buffer between two calls: head and tail are in the ring, and the flags are those of the
initialisation. -/
structure BufferOk (flags : ℕ) (buf : Buffer) : Prop where
  /-- The head is in the ring. -/
  head : buf.head < bufferSize
  /-- The tail is in the ring. -/
  tail : buf.tail < bufferSize
  /-- Calls keep the flags. -/
  flags : buf.flags=flags

/-- The mask is the modulus of the ring. -/
theorem and_bufferMask (x : ℕ) : x&&&bufferMask=x%bufferSize :=
  Nat.and_two_pow_sub_one_eq_mod x 10

/-- An index after the mask is in the ring. -/
theorem masked_lt (x : ℕ) : x&&&bufferMask < bufferSize := by
  rw [and_bufferMask]
  exact Nat.mod_lt _ (by decide)

/-- The bit tests and the `switch` agree on the four values of the flags. -/
theorem switchFlags_eq {flags : ℕ} (h : flags<4) (r : Range) :
    switchFlags flags r=handleDescriptor flags r := by
  have hcases : flags=0 ∨ flags=1 ∨ flags=2 ∨ flags=3 := by omega
  rcases hcases with rfl|rfl|rfl|rfl <;> rfl

/-- Both versions do the same with a descriptor. -/
theorem actions_eq {flags : ℕ} (h : flags<4) (version : Version) (r : Range) :
    actions version flags r=handleDescriptor flags r := by
  cases version with
  | plain => exact switchFlags_eq h r
  | fancy => rfl

section Calls

variable {version : Version} {flags : ℕ} {buf : Buffer}

/-- A handled descriptor with the actions that its flags ask for, and no others. -/
def LogOk (flags : ℕ) (log : List Handled) : Prop :=
  ∀ e, e∈log → e.2=handleDescriptor flags e.1

/-- What a call that adds `ds` does: the ring stays in order, entries leave it at the front and
enter it at the end. -/
structure Keeps (flags : ℕ) (buf : Buffer) (ds : List Range) (buf' : Buffer)
    (log : List Handled) : Prop where
  /-- The buffer after the call. -/
  ok : BufferOk flags buf'
  /-- Nothing is lost or handled twice. -/
  order : log.map Prod.fst++contentsOf buf'=contentsOf buf++ds
  /-- The actions on the handled entries. -/
  log : LogOk flags log

/-- Handling the oldest entry. -/
theorem handleTail_keeps (hf : flags<4) (h : BufferOk flags buf) (hne : buf.tail≠buf.head) :
    Keeps flags buf [] (handleTail version buf).1 [(handleTail version buf).2] := by
  refine ⟨⟨h.head,masked_lt _,h.flags⟩,?_,?_⟩
  · show [buf.list buf.tail]++contents buf.list bufferSize buf.head
      ((buf.tail+1)&&&bufferMask)=contents buf.list bufferSize buf.head buf.tail++[]
    rw [and_bufferMask,contents_pop buf.list h.head h.tail hne,List.append_nil]
    rfl
  · intro e he
    rw [List.mem_singleton] at he
    subst he
    show actions version buf.flags (buf.list buf.tail)=_
    rw [h.flags]
    exact actions_eq hf version _

/-- Storing into a ring that is not full. -/
theorem storeHead_keeps (h : BufferOk flags buf) (hroom : (buf.head+1)&&&bufferMask≠buf.tail)
    (desc : Range) : Keeps flags buf [desc] (storeHead buf desc) [] := by
  refine ⟨⟨masked_lt _,h.tail,h.flags⟩,?_,fun e he => by cases he⟩
  show contents (Function.update buf.list buf.head desc) bufferSize
    ((buf.head+1)&&&bufferMask) buf.tail=contents buf.list bufferSize buf.head buf.tail++[desc]
  rw [and_bufferMask] at hroom ⊢
  exact contents_push buf.list desc h.head h.tail hroom

/-- Calls one after the other. -/
theorem Keeps.trans {b₁ b₂ : Buffer} {ds es : List Range} {l₁ l₂ : List Handled}
    (h : Keeps flags buf ds b₁ l₁) (h' : Keeps flags b₁ es b₂ l₂) :
    Keeps flags buf (ds++es) b₂ (l₁++l₂) := by
  refine ⟨h'.ok,?_,?_⟩
  · rw [List.map_append,List.append_assoc,h'.order,←List.append_assoc,h.order,List.append_assoc]
  · intro e he
    rcases List.mem_append.1 he with h₁|h₂
    · exact h.log e h₁
    · exact h'.log e h₂

/-- No call. -/
theorem Keeps.refl (h : BufferOk flags buf) : Keeps flags buf [] buf [] :=
  ⟨h,(List.append_nil _).symm,fun e he => by cases he⟩

/-- The loop empties the ring when its fuel is the number of entries. Each turn takes the oldest
one. -/
theorem emptyLoop_keeps (hf : flags<4) (fuel : ℕ) (h : BufferOk flags buf)
    (hfuel : size bufferSize buf.head buf.tail≤fuel) : ∃ b log,
      (∀ version, emptyLoop version fuel buf=some (b,log)) ∧ Keeps flags buf [] b log ∧
        b.tail=b.head := by
  induction fuel generalizing buf with
  | zero =>
    have hempty : buf.tail=buf.head := by
      have hhead := h.head
      have htail := h.tail
      unfold size at hfuel
      split at hfuel <;> omega
    exact ⟨buf,[],fun _ => if_pos hempty,Keeps.refl h,hempty⟩
  | succ fuel ih =>
    by_cases hempty : buf.tail=buf.head
    · exact ⟨buf,[],fun _ => if_pos hempty,Keeps.refl h,hempty⟩
    · have hone : Keeps flags buf [] (handleTail .plain buf).1 [(handleTail .plain buf).2] :=
        handleTail_keeps hf h hempty
      have hsize : size bufferSize (handleTail .plain buf).1.head
          (handleTail .plain buf).1.tail≤fuel := by
        show size bufferSize buf.head ((buf.tail+1)&&&bufferMask)≤fuel
        have hhead := h.head
        have htail := h.tail
        rw [and_bufferMask,succ_mod htail]
        unfold size at hfuel ⊢
        split at hfuel <;> split <;> split <;> omega
      have hboth : ∀ version, handleTail version buf=handleTail .plain buf := by
        intro version
        unfold handleTail
        rw [actions_eq (by rw [h.flags]; exact hf),actions_eq (by rw [h.flags]; exact hf)]
      obtain ⟨b,log,hrun,hkeeps,hend⟩ := ih hone.ok hsize
      refine ⟨b,(handleTail .plain buf).2::log,fun version => ?_,hone.trans hkeeps,hend⟩
      rw [emptyLoop,if_neg hempty,hboth version]
      dsimp only
      rw [hrun version]
      rfl

/-- `empty_all_descriptors` returns and leaves the ring empty. -/
theorem emptyAllDescriptors_keeps (hf : flags<4) (h : BufferOk flags buf) : ∃ b log,
    (∀ version, emptyAllDescriptors version buf=some (b,log)) ∧ Keeps flags buf [] b log ∧
      b.tail=b.head := by
  unfold emptyAllDescriptors
  by_cases hempty : buf.head=buf.tail
  · exact ⟨buf,[],fun _ => if_pos hempty,Keeps.refl h,hempty.symm⟩
  · have hsize : size bufferSize buf.head buf.tail≤bufferSize := by
      have hhead := h.head
      have htail := h.tail
      unfold size
      split <;> omega
    obtain ⟨b,log,hrun,hkeeps,hend⟩ := emptyLoop_keeps hf bufferSize h hsize
    refine ⟨b,log,fun version => ?_,hkeeps,hend⟩
    rw [if_neg hempty,hrun version]

/-- A head that was advanced is not where it was. -/
theorem advance_ne {x : ℕ} (h : x < bufferSize) : (x+1)&&&bufferMask≠x := by
  rw [and_bufferMask,succ_mod h]
  unfold bufferSize at *
  split <;> omega

/-- `add_descriptor` returns and appends its descriptor. What it has handled are the oldest entries,
in their order. -/
theorem addDescriptor_keeps (hf : flags<4) (emptyAll : Bool) (h : BufferOk flags buf)
    (desc : Range) : ∃ b log, (∀ version, addDescriptor version emptyAll buf desc=some (b,log)) ∧
      Keeps flags buf [desc] b log := by
  unfold addDescriptor
  by_cases hfull : (buf.head+1)&&&bufferMask=buf.tail
  · cases emptyAll with
    | true =>
      obtain ⟨b,log,hrun,hkeeps,hend⟩ := emptyAllDescriptors_keeps hf h
      refine ⟨storeHead b desc,log,fun version => ?_,?_⟩
      · rw [if_pos hfull,if_pos rfl,hrun version]
        rfl
      · have hstore := storeHead_keeps hkeeps.ok
          (by rw [hend]; exact advance_ne hkeeps.ok.head) desc
        have hboth := hkeeps.trans hstore
        rw [List.append_nil] at hboth
        exact hboth
    | false =>
      have hne : buf.tail≠buf.head := by
        rw [←hfull]
        exact advance_ne h.head
      have hone : Keeps flags buf [] (handleTail .plain buf).1 [(handleTail .plain buf).2] :=
        handleTail_keeps hf h hne
      have hstore := storeHead_keeps hone.ok (by
        show (buf.head+1)&&&bufferMask≠(buf.tail+1)&&&bufferMask
        rw [hfull]
        exact (advance_ne h.tail).symm) desc
      refine ⟨storeHead (handleTail .plain buf).1 desc,[(handleTail .plain buf).2],
        fun version => ?_,hone.trans hstore⟩
      rw [if_pos hfull,if_neg (by decide)]
      unfold handleTail
      rw [actions_eq (by rw [h.flags]; exact hf),actions_eq (by rw [h.flags]; exact hf)]
  · exact ⟨storeHead buf desc,[],fun _ => if_neg hfull,storeHead_keeps h hfull desc⟩

/-- One call of either kind. -/
theorem exec_keeps (hf : flags<4) (emptyAll : Bool) (h : BufferOk flags buf) (op : Op) :
    ∃ b log, (∀ version, exec version emptyAll buf op=some (b,log)) ∧
      Keeps flags buf (added [op]) b log ∧ (op=.emptyAll → b.tail=b.head) := by
  cases op with
  | add desc =>
    obtain ⟨b,log,hrun,hkeeps⟩ := addDescriptor_keeps hf emptyAll h desc
    exact ⟨b,log,hrun,hkeeps,fun he => by cases he⟩
  | emptyAll =>
    obtain ⟨b,log,hrun,hkeeps,hend⟩ := emptyAllDescriptors_keeps hf h
    exact ⟨b,log,hrun,hkeeps,fun _ => hend⟩

/-- What two sequences of calls add. -/
theorem added_append (ops ops' : List Op) : added (ops++ops')=added ops++added ops' := by
  induction ops with
  | nil => rfl
  | cons op ops ih =>
    cases op with
    | add desc =>
      show desc::added (ops++ops')=desc::added ops++added ops'
      rw [ih]
      rfl
    | emptyAll => exact ih

/-- Every sequence of calls returns, with the same result in both versions, and keeps the order of
the descriptors. -/
theorem run_keeps (hf : flags<4) (emptyAll : Bool) (ops : List Op) (h : BufferOk flags buf) :
    ∃ b log, (∀ version, run version emptyAll buf ops=some (b,log)) ∧
      Keeps flags buf (added ops) b log ∧
        ((∃ before, ops=before++[.emptyAll]) → b.tail=b.head) := by
  induction ops generalizing buf with
  | nil =>
    refine ⟨buf,[],fun _ => rfl,Keeps.refl h,?_⟩
    rintro ⟨before,he⟩
    cases before <;> cases he
  | cons op ops ih =>
    obtain ⟨b₁,l₁,hrun₁,hkeeps₁,hend₁⟩ := exec_keeps hf emptyAll h op
    obtain ⟨b₂,l₂,hrun₂,hkeeps₂,hend₂⟩ := ih hkeeps₁.ok
    refine ⟨b₂,l₁++l₂,fun version => ?_,?_,?_⟩
    · rw [run,hrun₁ version,Option.bind_some,hrun₂ version]
      rfl
    · have hadded := added_append [op] ops
      rw [List.singleton_append] at hadded
      rw [hadded]
      exact hkeeps₁.trans hkeeps₂
    · rintro ⟨before,he⟩
      cases before with
      | nil =>
        injection he with hop hops
        subst hops
        have hsame := hrun₂ .plain
        rw [run] at hsame
        injection hsame with hsame
        injection hsame with hb _
        rw [←hb]
        exact hend₁ hop
      | cons op' before =>
        injection he with _ hops
        exact hend₂ ⟨before,hops⟩

end Calls

/-- For all flags, both build options, any contents of memory and every sequence of calls: both
versions return with the same ring and the same actions in the same order; head and tail are in
the ring; what was handled, followed by the contents, is what was added; each descriptor is
written back before it is invalidated, as its flags say; and after an empty-all call nothing is
left. -/
theorem lazy_descriptors {flags : ℕ} (hf : flags<4) (emptyAll : Bool) (memory : ℕ → Range)
    (ops : List Op) : ∃ buf log,
      (∀ version, run version emptyAll (initDescriptorBuffer memory flags) ops=some (buf,log)) ∧
      buf.head < bufferSize ∧ buf.tail < bufferSize ∧
      log.map Prod.fst++contentsOf buf=added ops ∧
      (∀ e, e∈log → e.2=(if flags%2=1 then [.writeback e.1] else [])++
        (if 2≤flags then [.invalidate e.1] else [])) ∧
      ((∃ before, ops=before++[.emptyAll]) → buf.head=buf.tail ∧ contentsOf buf=[]) := by
  have hinit : BufferOk flags (initDescriptorBuffer memory flags) :=
    ⟨Nat.two_pow_pos 10,Nat.two_pow_pos 10,rfl⟩
  obtain ⟨b,log,hrun,hkeeps,hend⟩ := run_keeps hf emptyAll ops hinit
  refine ⟨b,log,hrun,hkeeps.ok.head,hkeeps.ok.tail,?_,?_,?_⟩
  · have horder := hkeeps.order
    have hnone : contentsOf (initDescriptorBuffer memory flags)=[] := contents_empty memory
    rw [hnone,List.nil_append] at horder
    exact horder
  · intro e he
    rw [hkeeps.log e he]
    have hcases : flags=0 ∨ flags=1 ∨ flags=2 ∨ flags=3 := by omega
    rcases hcases with rfl|rfl|rfl|rfl <;> rfl
  · intro hlast
    have heq := hend hlast
    refine ⟨heq.symm,?_⟩
    unfold contentsOf
    rw [heq]
    exact contents_empty b.list

/-- What task number `i` touched. The words differ from task to task, so that no two can be taken
for each other. -/
def taskRange (i : ℕ) : Range := ⟨1,2,8*i,8*i+8⟩

/-- The descriptors of some tasks, one after the other, with no call in between that empties the
ring. -/
def addAll (tasks : List ℕ) : List Op := tasks.map fun i => .add (taskRange i)

/-- The descriptors of the tasks are added in their order. -/
theorem added_addAll (tasks : List ℕ) (ops : List Op) :
    added (addAll tasks++ops)=tasks.map taskRange++added ops := by
  induction tasks with
  | nil => rfl
  | cons i tasks ih => exact congrArg (taskRange i::·) ih

/-- After the descriptors of 1500 tasks the head has gone around the ring, the ring was full and
the oldest entries have left it; an empty-all call then handles the others, in the order in which
they were added. -/
theorem lazy_descriptors_wrapped :
    (∃ buf log, run .plain false (initDescriptorBuffer (fun _ => taskRange 0) 3)
      (addAll (List.range 1500))=some (buf,log) ∧ 476 < log.length) ∧
    ∃ buf log, run .fancy false (initDescriptorBuffer (fun _ => taskRange 0) 3)
      (addAll (List.range 1500)++[.emptyAll])=some (buf,log) ∧
      log.map Prod.fst=(List.range 1500).map taskRange ∧ buf.head=buf.tail := by
  constructor
  · obtain ⟨buf,log,hrun,hhead,htail,horder,-⟩ := lazy_descriptors (by decide : 3<4) false
      (fun _ => taskRange 0) (addAll (List.range 1500))
    have hadded := added_addAll (List.range 1500) []
    rw [List.append_nil] at hadded
    have hlength := congrArg List.length (horder.trans hadded)
    have hroom : (contentsOf buf).length<1024 := contents_length_lt buf.list hhead htail
    simp only [List.length_append,List.length_map,List.length_range,added,List.append_nil]
      at hlength
    exact ⟨buf,log,hrun .plain,by omega⟩
  · obtain ⟨buf,log,hrun,-,-,horder,-,hend⟩ := lazy_descriptors (by decide : 3<4) false
      (fun _ => taskRange 0) (addAll (List.range 1500)++[.emptyAll])
    obtain ⟨hequal,hempty⟩ := hend ⟨addAll (List.range 1500),rfl⟩
    rw [hempty,List.append_nil,added_addAll] at horder
    exact ⟨buf,log,hrun .fancy,horder.trans (List.append_nil _),hequal⟩

end RigelTarget.DescriptorBuffer

import Fdm.Lib.Runs
import Fdm.Lib.Scanf
import Fdm.Lib.KeyedTree
import Fdm.Mail
import Fdm.Fetch.Loop
import Fdm.Pop3.Defs
import Fdm.Pop3.Cache
import Fdm.Pop3.Invariant
import Fdm.Pop3.Session
import Fdm.Pop3.Theorems
import Fdm.Imap.Defs
import Fdm.Imap.Invariant
import Fdm.Imap.Theorems
import Fdm.Nntp.Defs
import Fdm.Nntp.Invariant
import Fdm.Nntp.Theorems
import Fdm.Mbox.Defs
import Fdm.Mbox.Scan
import Fdm.Mbox.Invariant
import Fdm.Mbox.Theorems
import Fdm.Lib.Owners
import Fdm.Locking.Calls
import Fdm.Locking.Invariant
import Fdm.Locking.Theorems
import Fdm.Fetch.Dots
import Fdm.Imap.Literal
import Fdm.Io.Theorems
import Fdm.Header
import Fdm.Lib.Memory
import Fdm.Lib.Schedule
import Fdm.Mbox.Deliver
import Fdm.Mbox.Outcome
import Fdm.Mbox.Passes
import Fdm.Mbox.RoundTrip
import Fdm.Regexp
import Fdm.Rules.Defs
import Fdm.Rules.Eval
import Fdm.Rules.Invariant
import Fdm.Rules.Theorems
import Fdm.Tags.Defs
import Fdm.Tags.Refinement
import Fdm.Tags.Theorems
import Fdm.Attach.ContentType
import Fdm.Attach.Scan
import Fdm.Attach.Theorems
import Fdm.Account.Bytes
import Fdm.Lex.Conditionals
import Fdm.Delivery
import Fdm.Parent.Answers
import Fdm.Maildir.Unlinks
import Fdm.Wrap.Invariant
import Fdm.Imap.Client
import Fdm.Imap.Select
import Fdm.Replace.Pieces
import Fdm.Replace.Memory
import Fdm.Address
import Fdm.Attach.Visit
import Fdm.Attach.Attributes
import Fdm.Deliver.Lines
import Fdm.Deliver.Smtp
import Fdm.Deliver.Imap
import Fdm.Lib.Budget
import Fdm.Rules.Chains
import Fdm.MailTime
import Fdm.Command.Theorems
import Fdm.Imap.Totals
import Fdm.Pop3.Uidl
import Fdm.Imap.Classify
import Fdm.Deliver.WaitAppend
import Fdm.Deliver.Dialogue
import Fdm.Connect
import Fdm.Netrc.Lookup
import Fdm.Mbox.Oversize
import Fdm.Lib.Upsert
import Fdm.Nntp.CacheFile
import Fdm.Nntp.Server
import Fdm.Nntp.Walk
import Fdm.Nntp.Articles
import Fdm.Account.Purge
import Fdm.LineTags
import Fdm.Lib.Strchr
import Fdm.Proxyurl
import Fdm.Replace.Path
import Fdm.Lex.Quoted
import Fdm.Xmalloc
import Fdm.Lex.Strings
import Fdm.Bytebuf.Defs
import Fdm.Bytebuf.Theorems
import Fdm.Bytebuf.Reading
import Fdm.Splay.Defs
import Fdm.Splay.Theorems
import Fdm.Pop3.Trees
import Fdm.Privsep.Defs
import Fdm.Privsep.Flow
import Fdm.Privsep.Theorems
import Fdm.Lib.Dialogue
import Fdm.Imap.Conversation
import Fdm.Pop3.Conversation
import Fdm.Conf.Defs
import Fdm.Conf.Nesting
import Fdm.Conf.Theorems
import Fdm.Parent.Main
import Fdm.Lib.Holdings
import Fdm.Shm.Defs
import Fdm.Shm.Invariant
import Fdm.Shm.Theorems
import Fdm.Rules.Worlds
import Fdm.Account.Pipeline
import Fdm.Account.Fetching
import Fdm.Account.Commits
import Fdm.Pop3.Deletions
import Fdm.Cache.Theorems
import Fdm.FetchStdin
import Fdm.Imap.Marks
import Fdm.Maildir.Ruled

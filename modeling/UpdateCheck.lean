import UpdateCheck.Base.CString
import UpdateCheck.Base.Effects
import UpdateCheck.Base.Select
import UpdateCheck.Base.Binary64
import UpdateCheck.Types
import UpdateCheck.Comparator.Order
import UpdateCheck.Comparator.Compare
import UpdateCheck.Comparator.Convergence
import UpdateCheck.Json.Value
import UpdateCheck.Json.Lexer
import UpdateCheck.Json.Parser
import UpdateCheck.Json.Grammar
import UpdateCheck.Validator
import UpdateCheck.ListParser.Parse
import UpdateCheck.ListParser.Entries
import UpdateCheck.ListParser.Walk
import UpdateCheck.Fetcher.Curl
import UpdateCheck.Fetcher.Fetch
import UpdateCheck.Fetcher.Deliver
import UpdateCheck.Fetcher.Secure
import UpdateCheck.Updater.Check
import UpdateCheck.Updater.Answer
import UpdateCheck.Updater.Batch
import UpdateCheck.Updater.Coherence
import UpdateCheck.Updater.Reorder
import UpdateCheck.Updater.Padding
import UpdateCheck.ListParser.Numbers
import UpdateCheck.ListParser.Strings
import UpdateCheck.Updater.UserAgent
import UpdateCheck.Fetcher.Buffer
import UpdateCheck.Json.Whole
import UpdateCheck.Updater.Body
import UpdateCheck.Base.Ownership
import UpdateCheck.ListParser.Ownership
import UpdateCheck.Fetcher.Ownership
import UpdateCheck.Updater.Exhaustion
import UpdateCheck.Updater.Ownership
import UpdateCheck.Updater.Application
import UpdateCheck.Updater.Refinement
import UpdateCheck.ListParser.Image
import UpdateCheck.Updater.Spelling
import UpdateCheck.Python.Wrapper
import UpdateCheck.Python.Results
import UpdateCheck.Python.Checks
